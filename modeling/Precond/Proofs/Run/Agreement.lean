import Mathlib.Data.List.NodupEquivFin
import Mathlib.Data.List.Perm.Subperm
import Precond.Proofs.Flow.Loops
import Precond.Proofs.Run.Readings

/-! Stores that agree. Memories with the same cells need not be the same, so that agreement of values
is coarser than equality, of memories only. Agreeing stores yield agreeing values (`Exp.Yields.agree`),
and what is asked of an expression in one of them is asked in the other (`Exp.Somewhere.agree`). -/

namespace Precond

open IR

/-! ### Memories -/

namespace Memory

variable {a c : Nat} {m n : Memory a c}

/-- Different addresses, as many as there are, are all of them. -/
theorem all_mem_iff {keys : List (BitVec a)} (hk : keys.Nodup) :
    (∀ x, x ∈ keys) ↔ keys.length = 2 ^ a := by
  have hnodup : (keys.map BitVec.toNat).Nodup := hk.map fun _ _ => BitVec.eq_of_toNat_eq
  have hsub : keys.map BitVec.toNat ⊆ List.range (2 ^ a) := by
    intro k hk
    obtain ⟨x, -, rfl⟩ := List.mem_map.mp hk
    exact List.mem_range.mpr x.isLt
  have hperm := hnodup.subperm hsub
  constructor
  · intro hall
    have hback : List.range (2 ^ a) ⊆ keys.map BitVec.toNat := by
      intro k hk
      exact List.mem_map.mpr ⟨BitVec.ofNat a k, hall _,
        BitVec.toNat_ofNat k a ▸ Nat.mod_eq_of_lt (List.mem_range.mp hk)⟩
    have hlen := Nat.le_antisymm hperm.length_le (List.nodup_range.subperm hback).length_le
    rwa [List.length_map, List.length_range] at hlen
  · intro hlen x
    have hall := (hperm.perm_of_length_le (by simp [hlen])).mem_iff (a := x.toNat)
    obtain ⟨y, hy, hyx⟩ := List.mem_map.mp (hall.mpr (List.mem_range.mpr x.isLt))
    exact BitVec.eq_of_toNat_eq hyx ▸ hy

/-- Memories agree just if they have the same cells. -/
theorem agree_iff : m.agree n = true ↔ ∀ x, m.get x = n.get x := by
  have hout {x : BitVec a} (hx : x ∉ (m.cells.map (·.1) ++ n.cells.map (·.1)).eraseDups) :
      m.get x = m.base ∧ n.get x = n.base := by
    rw [List.mem_eraseDups, List.mem_append, not_or] at hx
    have hlookup (k : Memory a c) (hk : x ∉ k.cells.map (·.1)) : k.get x = k.base := by
      rw [get, List.lookup_eq_none_iff.mpr fun p hp => ?_]
      · rfl
      · exact bne_iff_ne.mpr fun hxp => hk (hxp ▸ List.mem_map_of_mem hp)
    exact ⟨hlookup m hx.1, hlookup n hx.2⟩
  rw [agree, Bool.and_eq_true, List.all_eq_true, Bool.or_eq_true, beq_iff_eq, beq_iff_eq]
  simp only [beq_iff_eq]
  constructor
  · rintro ⟨hkeys, hbase⟩ x
    by_cases hx : x ∈ (m.cells.map (·.1) ++ n.cells.map (·.1)).eraseDups
    · exact hkeys x hx
    · rcases hbase with hbase | hlen
      · rw [(hout hx).1, (hout hx).2, hbase]
      · exact absurd ((all_mem_iff (nodup_eraseDups _)).mpr hlen x) hx
  · intro hget
    refine ⟨fun x _ => hget x, ?_⟩
    by_cases hall : ∀ x, x ∈ (m.cells.map (·.1) ++ n.cells.map (·.1)).eraseDups
    · exact .inr ((all_mem_iff (nodup_eraseDups _)).mp hall)
    · obtain ⟨x, hx⟩ := not_forall.mp hall
      have h := hget x
      rw [(hout hx).1, (hout hx).2] at h
      exact .inl h

theorem get_set (m : Memory a c) (x y : BitVec a) (v : BitVec c) :
    (m.set x v).get y = if y = x then v else m.get y := by
  split
  · rename_i h
    rw [h, get_set_self]
  · rename_i h
    exact get_set_of_ne m v h

theorem set_congr (h : ∀ x, m.get x = n.get x) (y : BitVec a) (v : BitVec c) :
    ∀ x, (m.set y v).get x = (n.set y v).get x := by
  intro x
  rw [get_set, get_set, h]

end Memory

/-! ### Values -/

/-- Equal values; memories are equal where they agree at every address. -/
inductive Value.Agrees : Value → Value → Prop
  | mk {a b : TSort.Val s} : s.agree a b → Value.Agrees ⟨s, a⟩ ⟨s, b⟩

namespace Value

theorem Agrees.memory {a c : Nat} {m n : Memory a c} (h : ∀ x, m.get x = n.get x) :
    (memory m).Agrees (memory n) :=
  .mk (s := .mem a c) (Memory.agree_iff.mpr h)

theorem Agrees.refl : (x : Value) → x.Agrees x
  | ⟨.bool, true⟩ | ⟨.bool, false⟩ => .mk rfl
  | ⟨.bv w, x⟩ => .mk (s := .bv w) (beq_self_eq_true (α := BitVec w) x)
  | ⟨.mem _ _, _⟩ => .memory fun _ => rfl

/-- Values that agree are equal, or memories with the same cells. -/
theorem Agrees.cases {x y : Value} (h : x.Agrees y) : x = y ∨ ∃ (a c : Nat) (m n : Memory a c),
    x = Value.memory m ∧ y = Value.memory n ∧ ∀ i, m.get i = n.get i := by
  cases h with
  | @mk s a b h =>
    cases s with
    | bool =>
      cases a <;> cases b
      · exact .inl rfl
      · cases h
      · cases h
      · exact .inl rfl
    | bv w => exact .inl (congrArg _ (eq_of_beq (α := BitVec w) h))
    | mem c d => exact .inr ⟨c, d, a, b, rfl, rfl, Memory.agree_iff.mp h⟩

theorem Agrees.symm {x y : Value} (h : x.Agrees y) : y.Agrees x := by
  rcases h.cases with rfl | ⟨a, c, m, n, rfl, rfl, hm⟩
  · exact .refl x
  · exact .memory fun i => (hm i).symm

theorem Agrees.trans {x y z : Value} (h : x.Agrees y) (h' : y.Agrees z) : x.Agrees z := by
  rcases h.cases with rfl | ⟨a, c, m, n, rfl, rfl, hm⟩
  · exact h'
  · rcases h'.cases with rfl | ⟨a', c', m', n', hy, rfl, hm'⟩
    · exact .memory hm
    · cases hy
      exact .memory fun i => (hm i).trans (hm' i)

theorem Agrees.sort {x y : Value} (h : x.Agrees y) : x.1 = y.1 := by
  cases h
  rfl

/-- A word agrees with itself only. -/
theorem Agrees.word {w : Nat} {x : BitVec w} {y : Value} (h : (Value.word x).Agrees y) :
    y = Value.word x := by
  rcases h.cases with rfl | ⟨a, c, m, n, hx, -, -⟩
  · rfl
  · cases hx

/-! ### Operations -/

variable {x x' y y' z z' : Value}

/-- An operation on words takes agreeing values for the same. -/
theorem Agrees.same {f : Value → α} {b : α} (h : x.Agrees y)
    (hf : ∀ {a c : Nat} (m : Memory a c), f (Value.memory m) = b) : f x = f y := by
  rcases h.cases with rfl | ⟨a, c, m, n, rfl, rfl, -⟩
  · rfl
  · rw [hf, hf]

theorem Agrees.nonZero? (h : x.Agrees y) : x.nonZero? = y.nonZero? := h.same fun _ => rfl

theorem Agrees.extract? (h : x.Agrees y) (hi lo : Int) : x.extract? hi lo = y.extract? hi lo :=
  h.same fun _ => rfl

theorem Agrees.unary (h : x.Agrees y) (op : UnOp) : op.value? x = op.value? y := h.same fun _ => rfl

theorem Agrees.cast (h : x.Agrees y) (kind : CastKind) (width : Int) :
    kind.value? width x = kind.value? width y := h.same fun _ => rfl

theorem Agrees.binary (h : x.Agrees x') (h' : y.Agrees y') (op : BinOp) :
    op.value? x y = op.value? x' y' := by
  have hmem {a c : Nat} (m : Memory a c) (v : Value) : op.value? v (Value.memory m) = none := by
    obtain ⟨⟨⟩, v⟩ := v <;> rfl
  exact (h.same (f := (op.value? · y)) fun _ => rfl).trans (h'.same (hmem · x'))

theorem Agrees.concat? (h : x.Agrees x') (h' : y.Agrees y') : x.concat? y = x'.concat? y' := by
  have hmem {a c : Nat} (m : Memory a c) (v : Value) : v.concat? (Value.memory m) = none := by
    obtain ⟨⟨⟩, v⟩ := v <;> rfl
  exact (h.same (f := (Value.concat? · y)) fun _ => rfl).trans (h'.same (hmem · x'))

theorem Agrees.load? (h : x.Agrees x') (h' : y.Agrees y') (endian : Endian) (size : Int) :
    Value.load? endian size x y = Value.load? endian size x' y' := by
  have haddr {a c : Nat} (m : Memory a c) (v : Value) :
      Value.load? endian size v (Value.memory m) = none := by
    obtain ⟨⟨⟩, v⟩ := v <;> rfl
  refine Eq.trans ?_ (h'.same (haddr · x'))
  rcases h.cases with rfl | ⟨a, c, m, n, rfl, rfl, hm⟩
  · rfl
  · have hcells (x : BitVec a) (k : Nat) : cellsAt m x k = cellsAt n x k :=
      List.map_congr_left fun i _ => by rw [hm]
    obtain ⟨s, v⟩ := y
    cases s with
    | bv w => simp only [Value.load?, Value.memory, hcells]
    | bool | mem => rfl

theorem writeCells_congr {a c : Nat} (x : BitVec a) (cells : List (BitVec c)) :
    ∀ (i : Nat) {m n : Memory a c}, (∀ j, m.get j = n.get j) →
      ∀ j, (writeCells x i cells m).get j = (writeCells x i cells n).get j := by
  induction cells with
  | nil => exact fun _ _ _ h => h
  | cons v cells ih => exact fun i _ _ h => ih (i + 1) (Memory.set_congr h _ _)

theorem store?_word {a c a' w : Nat} (endian : Endian) (size : Int) (m : Memory a c) (x : BitVec a')
    (v : BitVec w) : Value.store? endian size (Value.memory m) (Value.word x) (Value.word v) =
      (cellCount? c size).bind fun n =>
        if h : a' = a then
          if size = w then
            some (.memory (writeCells (h ▸ x) 0 (inOrder endian (cellsOf c v n)) m))
          else none
        else none := rfl

theorem Agrees.store? (h : x.Agrees x') (h' : y.Agrees y') (h'' : z.Agrees z') {endian : Endian}
    {size : Int} {r : Value} (hr : Value.store? endian size x y z = some r) :
    ∃ r', Value.store? endian size x' y' z' = some r' ∧ r.Agrees r' := by
  have haddr {a c : Nat} (m : Memory a c) (v u : Value) :
      Value.store? endian size v (Value.memory m) u = none := by
    obtain ⟨⟨⟩, v⟩ := v <;> rfl
  have hvalue {a c : Nat} (m : Memory a c) (v u : Value) :
      Value.store? endian size v u (Value.memory m) = none := by
    obtain ⟨⟨⟩, v⟩ := v <;> obtain ⟨⟨⟩, u⟩ := u <;> rfl
  rw [← h''.same (hvalue · x' y'), ← h'.same (f := (Value.store? endian size x' · z)) (haddr · x' z)]
  rcases h.cases with rfl | ⟨a, c, m, n, rfl, rfl, hm⟩
  · exact ⟨r, hr, .refl r⟩
  obtain ⟨s, v⟩ := y
  obtain ⟨t, u⟩ := z
  cases s with
  | bool | mem => cases hr
  | bv a' =>
    cases t with
    | bool | mem => cases hr
    | bv w =>
      obtain ⟨k, hk, hr⟩ := Option.bind_eq_some_iff.mp ((store?_word endian size m v u).symm.trans hr)
      split at hr
      · rename_i ha
        subst ha
        split at hr
        · rename_i hw
          cases hr
          refine ⟨_, ?_, .memory (writeCells_congr v (inOrder endian (cellsOf c u k)) 0 hm)⟩
          refine (store?_word endian size n v u).trans ?_
          rw [hk, Option.bind_some, dif_pos rfl, if_pos hw]
        · cases hr
      · cases hr

theorem Agrees.choose? (hc : x.Agrees x') (hy : y.Agrees y') (hz : z.Agrees z') {r : Value}
    (hr : Value.choose? x y z = some r) : ∃ r', Value.choose? x' y' z' = some r' ∧ r.Agrees r' := by
  rw [Value.choose?] at hr ⊢
  rw [← hc.nonZero?, ← hy.sort, ← hz.sort]
  split at hr
  · rename_i hsort
    obtain ⟨b, hb, rfl⟩ := Option.map_eq_some_iff.mp hr
    refine ⟨if b then y' else z', by rw [if_pos hsort, hb]; rfl, ?_⟩
    split
    · exact hy
    · exact hz
  · cases hr

end Value

/-! ### Expressions -/

/-- In both stores every variable has agreeing values. -/
def Store.Agrees (σ σ' : Store) : Prop := ∀ v, (σ v).Agrees (σ' v)

namespace Store.Agrees

variable {σ σ' : Store}

theorem symm (h : Agrees σ σ') : Agrees σ' σ := fun v => (h v).symm

theorem update {x y : Value} (h : Agrees σ σ') (v : Var) (hx : x.Agrees y) :
    Agrees (Function.update σ v x) (Function.update σ' v y) := by
  intro u
  by_cases hu : u = v
  · subst hu
    rwa [Function.update_self, Function.update_self]
  · rw [Function.update_of_ne hu, Function.update_of_ne hu]
    exact h u

end Store.Agrees

namespace IR.Exp

variable {σ σ' : Store}

/-- Agreeing stores yield agreeing values. -/
theorem Yields.agree {e : Exp} {x : Value} (hσ : σ.Agrees σ') (h : e.Yields σ x) :
    ∃ y, e.Yields σ' y ∧ x.Agrees y := by
  induction h generalizing σ' with
  | var => exact ⟨_, .var, hσ _⟩
  | lit hw => exact ⟨_, .lit hw, .refl _⟩
  | load _ _ hx ihm iha =>
    obtain ⟨m, hm, hma⟩ := ihm hσ
    obtain ⟨a, ha, haa⟩ := iha hσ
    exact ⟨_, .load hm ha (hma.load? haa _ _ ▸ hx), .refl _⟩
  | store _ _ _ hx ihm iha ihv =>
    obtain ⟨m, hm, hma⟩ := ihm hσ
    obtain ⟨a, ha, haa⟩ := iha hσ
    obtain ⟨v, hv, hva⟩ := ihv hσ
    obtain ⟨y, hy, hya⟩ := hma.store? haa hva hx
    exact ⟨y, .store hm ha hv hy, hya⟩
  | bin _ _ hx ihl ihr =>
    obtain ⟨y, hy, hya⟩ := ihl hσ
    obtain ⟨z, hz, hza⟩ := ihr hσ
    exact ⟨_, .bin hy hz (hya.binary hza _ ▸ hx), .refl _⟩
  | un _ hx ih =>
    obtain ⟨y, hy, hya⟩ := ih hσ
    exact ⟨_, .un hy (hya.unary _ ▸ hx), .refl _⟩
  | cast _ hx ih =>
    obtain ⟨y, hy, hya⟩ := ih hσ
    exact ⟨_, .cast hy (hya.cast _ _ ▸ hx), .refl _⟩
  | ite _ _ _ hx ihc ihy ihn =>
    obtain ⟨b, hb, hba⟩ := ihc hσ
    obtain ⟨y, hy, hya⟩ := ihy hσ
    obtain ⟨n, hn, hna⟩ := ihn hσ
    obtain ⟨z, hz, hza⟩ := hba.choose? hya hna hx
    exact ⟨z, .ite hb hy hn hz, hza⟩
  | extract _ hx ih =>
    obtain ⟨y, hy, hya⟩ := ih hσ
    exact ⟨_, .extract hy (hya.extract? _ _ ▸ hx), .refl _⟩
  | concat _ _ hx ihl ihr =>
    obtain ⟨y, hy, hya⟩ := ihl hσ
    obtain ⟨z, hz, hza⟩ := ihr hσ
    exact ⟨_, .concat hy hz (hya.concat? hza ▸ hx), .refl _⟩
  | unknown ht => exact ⟨_, .unknown ht, .refl _⟩
  | letIn _ _ ihv ihb =>
    obtain ⟨y, hy, hya⟩ := ihv hσ
    obtain ⟨z, hz, hza⟩ := ihb (hσ.update _ hya)
    exact ⟨z, .letIn hy hz, hza⟩

/-- What holds of a part in one store holds of it in an agreeing one. -/
theorem Somewhere.agree {P Q : Store → Exp → Prop} {e : Exp} (hσ : σ.Agrees σ')
    (hPQ : ∀ σ σ' e, Store.Agrees σ σ' → P σ e → Q σ' e) (h : Somewhere P σ e) : Somewhere Q σ' e := by
  induction h generalizing σ' with
  | here h => exact .here (hPQ _ _ _ hσ h)
  | part hk hc _ ih => exact .part hk hc (ih hσ)
  | value _ ih => exact .value (ih hσ)
  | body hy _ ih =>
    obtain ⟨z, hz, hza⟩ := hy.agree hσ
    exact .body hz (ih (hσ.update _ hza))

end IR.Exp

end Precond
