import Precond.Proofs.Constraint.Formula
import Precond.Proofs.Run.Readings
import Precond.Proofs.Walk.Translate

/-! The conditions that come with a translation. Local side rules tell of an expression what they ask
of it (`Walk.watches_sideConditions`), and a constraint under conditions holds where one that is taken
for granted does not, or where those to verify hold and the constraint itself does (`Walk.guard_ok`).
The condition of a valid access is about its first and its last byte, which tells of all bytes between
them unless the access wraps around (`Walk.validAccess_covers`). -/

namespace Precond

open IR

theorem SomeTerm.sized_eq_ok {t : SomeTerm} {y : (w : Nat) × Term (.bv w)} (h : t.sized = .ok y) :
    t = ⟨.bv y.1, y.2⟩ := by
  obtain ⟨s, x⟩ := t
  cases s with
  | bv w => cases h; rfl
  | bool => cases h
  | mem => cases h

theorem Env.holds_inRange {w : Nat} (bounds : Int × Int) (x : Term (.bv w)) (m : Model) :
    (Env.inRange bounds x).holds m = between bounds (x.bits m) := by
  simp [Env.inRange, between, BvCmp.eval, BitVec.ule]

theorem Regions.holds_validEnds {w : Nat} (e : Env) (x : Term (.bv w)) (size : Int) (m : Model) :
    (Walk.validEnds e x size).holds m = Regions.admits ⟨e.stack, e.heap⟩ (x.bits m) size := by
  have hor (p q : Term .bool) : (Term.or [p, q]).holds m = (p.holds m || q.holds m) := rfl
  simp [Walk.validEnds, Env.inStack, Env.inHeap, admits, Env.holds_inRange, hor, BvBin.eval]

namespace Walk

variable {side : Side} {w w' : World}

theorem accessed?_eq_some {access : Access} {e addr : Exp} {size : Int} :
    accessed? access e = some (addr, size) ↔ e.Accesses access addr size := by
  constructor
  · intro h
    cases e with
    | load m a endian n =>
      rw [accessed?] at h
      split at h
      · rename_i hk
        cases h
        exact hk ▸ .load
      · cases h
    | store m a v endian n =>
      rw [accessed?] at h
      split at h
      · rename_i hk
        cases h
        exact hk ▸ .store
      · cases h
    | _ => cases h
  · rintro (_ | _)
    · rfl
    · rfl

theorem divisions_contains (op : BinOp) : divisions.contains op = op.isDivision := by
  cases op <;> rfl

/-! ### Side rules -/

theorem translate_ok {e : Exp} {t : SomeTerm} (h : translate side e w = .ok t w') :
    w.Drawn side w' ∧ Stands (w.env side).vars e t := by
  obtain ⟨⟨x, hooks⟩, w₁, hx, h₁⟩ := bind_ok h
  cases h₁
  obtain ⟨-, hd, hst⟩ := translateWith_ok e hx
  exact ⟨hd, hst⟩

/-- A word of an expression is translated for a condition on it. -/
theorem sized_ok {e : Exp} {f : (n : Nat) × Term (.bv n) → Walk α} {a : α}
    (h : (translate side e >>= fun t => (liftM t.sized : Walk _) >>= f) w = .ok a w') :
    ∃ k x w₁, w.Drawn side w₁ ∧ Stands (w.env side).vars e ⟨.bv k, x⟩ ∧ f ⟨k, x⟩ w₁ = .ok a w' := by
  obtain ⟨t, w₁, ht, h₁⟩ := bind_ok h
  obtain ⟨⟨k, x⟩, w₂, hx, h₂⟩ := bind_ok h₁
  obtain ⟨hsized, rfl⟩ := ofExcept_ok hx
  obtain rfl := SomeTerm.sized_eq_ok hsized
  obtain ⟨hd, hst⟩ := translate_ok ht
  exact ⟨k, x, w₂, hd, hst, h₂⟩

/-- One condition, on the value of a part of the expression. -/
theorem Tells.one {T : Table Var SomeTerm} {Q : Store → Duty → Bool → Prop} {e : Exp} {k : Nat}
    {x : Term (.bv k)} {duty : Duty} {name : String} {p : Term .bool} {f : BitVec k → Bool}
    (hst : Stands T e ⟨.bv k, x⟩) (hp : ∀ m, p.holds m = f (x.bits m))
    (hQ : ∀ σ d b y, e.Yields σ (.word y) → (Q σ d b ↔ d = duty ∧ b = f y)) :
    Tells Q T [⟨duty, .before, name, p⟩] := by
  refine ⟨fun h hh => ?_, fun V m d b hV => ?_⟩
  · cases List.mem_singleton.mp hh
    rfl
  · have hy : e.Yields (m.store V) (.word (x.bits m)) := hst V hV m
    rw [hQ _ d b _ hy]
    constructor
    · rintro ⟨h, hh, rfl, rfl⟩
      cases List.mem_singleton.mp hh
      exact ⟨rfl, hp m⟩
    · rintro ⟨rfl, rfl⟩
      exact ⟨_, List.mem_singleton_self _, rfl, hp m⟩

theorem Tells.none {T : Table Var SomeTerm} {Q : Store → Duty → Bool → Prop}
    (hQ : ∀ σ d b, ¬ Q σ d b) : Tells Q T [] :=
  (Tells.nil T).congr fun σ d b => iff_of_false id (hQ σ d b)

theorem word_inj {k n : Nat} {x : BitVec k} {y : BitVec n} (h : Value.word x = Value.word y) :
    ∃ hk : k = n, hk ▸ x = y := by
  cases h
  exact ⟨rfl, rfl⟩

variable {regions : Regions}

/-- A local rule asks for its condition on a part of the expression. -/
theorem sideCondition_tells {rule : SideRule} (hr : rule.isLocal) {e : Exp} (he : e.known)
    (hw : regions = ⟨(w.env side).stack, (w.env side).heap⟩) {h : Option Hook}
    (hh : sideCondition side e rule w = .ok h w') :
    w.Drawn side w' ∧ Tells (fun σ => rule.Asks regions σ e) (w.env side).vars h.toList := by
  cases rule with
  | nonNull access duty =>
    rw [sideCondition] at hh
    cases hsome : accessed? access e with
    | none =>
      rw [hsome] at hh
      cases hh
      refine ⟨.refl .., .none fun σ d b hasks => ?_⟩
      cases hasks with
      | nonNull ha => cases hsome.symm.trans (accessed?_eq_some.mpr ha)
    | some p =>
      obtain ⟨addr, size⟩ := p
      rw [hsome] at hh
      have ha := accessed?_eq_some.mp hsome
      obtain ⟨k, x, w₁, hd, hst, h₁⟩ := sized_ok hh
      cases h₁
      refine ⟨hd, .one (f := (· != 0#k)) hst (fun m => Spine.holds_nonZero m x) fun σ d b y hy => ?_⟩
      constructor
      · intro hasks
        cases hasks with
        | nonNull ha' hz =>
          cases ha.unique ha'
          obtain ⟨rfl, rfl⟩ := word_inj (hy.unique (ha.known he) hz)
          exact ⟨rfl, rfl⟩
      · rintro ⟨rfl, rfl⟩
        exact .nonNull ha hy
  | validAccess access duty =>
    rw [sideCondition] at hh
    cases hsome : accessed? access e with
    | none =>
      rw [hsome] at hh
      cases hh
      refine ⟨.refl .., .none fun σ d b hasks => ?_⟩
      cases hasks with
      | validAccess ha => cases hsome.symm.trans (accessed?_eq_some.mpr ha)
    | some p =>
      obtain ⟨addr, size⟩ := p
      rw [hsome] at hh
      have ha := accessed?_eq_some.mp hsome
      obtain ⟨k, x, w₁, hd, hst, h₁⟩ := sized_ok hh
      obtain ⟨e₁, w₂, he₁, h₂⟩ := bind_ok h₁
      obtain ⟨rfl, rfl⟩ := env_ok he₁
      cases h₂
      refine ⟨hd, .one (f := (regions.admits · size)) hst (fun m => ?_) fun σ d b y hy => ?_⟩
      · obtain ⟨names, henv, -⟩ := hd.env
        rw [Regions.holds_validEnds, hw, henv]
      constructor
      · intro hasks
        cases hasks with
        | validAccess ha' hz =>
          cases ha.unique ha'
          obtain ⟨rfl, rfl⟩ := word_inj (hy.unique (ha.known he) hz)
          exact ⟨rfl, rfl⟩
      · rintro ⟨rfl, rfl⟩
        exact .validAccess ha hy
  | nonZeroDivisor =>
    unfold sideCondition at hh
    dsimp only at hh
    split at hh
    · rename_i op l divisor
      have hknown := (Bool.and_eq_true_iff.mp he).2
      rw [divisions_contains] at hh
      split at hh
      · rename_i hop
        obtain ⟨k, x, w₁, hd, hst, h₁⟩ := sized_ok hh
        cases h₁
        refine ⟨hd, .one (f := (· != 0#k)) hst (fun m => Spine.holds_nonZero m x) fun σ d b y hy => ?_⟩
        constructor
        · intro hasks
          cases hasks with
          | nonZeroDivisor _ hz =>
            obtain ⟨rfl, rfl⟩ := word_inj (hy.unique hknown hz)
            exact ⟨rfl, rfl⟩
        · rintro ⟨rfl, rfl⟩
          exact .nonZeroDivisor hop hy
      · rename_i hop
        cases hh
        refine ⟨.refl .., .none fun σ d b hasks => ?_⟩
        cases hasks with
        | nonZeroDivisor hdiv => exact hop hdiv
    · rename_i hno
      cases hh
      refine ⟨.refl .., .none fun σ d b hasks => ?_⟩
      cases hasks with
      | nonZeroDivisor => exact hno _ _ _ rfl
  | offsetRead | custom => cases hr

theorem sideConditions_tells {rules : List SideRule} (hr : ∀ r ∈ rules, r.isLocal) {e : Exp}
    (he : e.known) (hw : regions = ⟨(w.env side).stack, (w.env side).heap⟩) {hs : List Hook}
    (hh : sideConditions side rules e w = .ok hs w') :
    w.Drawn side w' ∧ Tells (fun σ => Asked regions rules σ e) (w.env side).vars hs := by
  induction rules generalizing w hs with
  | nil =>
    cases hh
    exact ⟨.refl .., .none fun σ d b ⟨r, hr, _⟩ => nomatch hr⟩
  | cons rule rules ih =>
    obtain ⟨h, w₁, hh₁, h₁⟩ := bind_ok hh
    obtain ⟨rest, w₂, hrest, h₂⟩ := bind_ok h₁
    cases h₂
    obtain ⟨hd, hrule⟩ := sideCondition_tells (hr rule List.mem_cons_self) he hw hh₁
    obtain ⟨names, henv, -⟩ := id hd.env
    obtain ⟨hd₁, hrules⟩ := ih (fun r hr' => hr r (List.mem_cons_of_mem _ hr'))
      (by rw [henv]; exact hw) hrest
    rw [hd.vars] at hrules
    refine ⟨hd.trans hd₁, (hrule.append hrules).congr fun σ d b => ?_⟩
    simp only [Asked, List.mem_cons, exists_eq_or_imp]

/-- Local rules tell what they ask for. -/
theorem watches_sideConditions {rules : List SideRule} (hr : ∀ r ∈ rules, r.isLocal) :
    Watches side (fun e => regions = ⟨e.stack, e.heap⟩) False (sideConditions side rules)
      (Asked regions rules) :=
  ⟨fun _ h => h, fun _ h => h, False.elim,
    fun he hw h => sideConditions_tells hr (he.resolve_right id) hw h⟩

/-- A translation with local side rules: the term stands for the value of the expression, and the
conditions are those that are asked for. -/
theorem translateChecked_tells {e : Exp} (he : e.known)
    (hr : ∀ r ∈ (w.env side).sideRules, r.isLocal) {t : SomeTerm} {hs : List Hook}
    (h : translateChecked side e w = .ok (t, hs) w') :
    w.Drawn side w' ∧ Stands (w.env side).vars e t ∧ Tells
      (Demands ⟨(w.env side).stack, (w.env side).heap⟩ (w.env side).sideRules · e)
      (w.env side).vars hs := by
  obtain ⟨u, w₁, h₁, h₂⟩ := bind_ok h
  cases h₁
  obtain ⟨e₁, w₂, h₃, h₄⟩ := bind_ok h₂
  obtain ⟨rfl, rfl⟩ := env_ok h₃
  have henv : World.env { w with translations := w.translations + 1 } side = w.env side := by
    cases side <;> rfl
  rw [henv] at h₄
  obtain ⟨hd, htells⟩ := translateWith_tells (watches_sideConditions hr) e (.inl he)
    ⟨by rw [henv], congrArg Env.vars henv⟩ h₄
  exact ⟨hd.counted, htells⟩

/-! ### Guards -/

/-- The goals of conditions. -/
theorem goals_ok {hs : List Hook} {cs : List Constr}
    (h : hs.mapM (fun h => mkGoal h.name h.term none) w = .ok cs w') :
    (∀ side, w'.env side = w.env side) ∧ (∀ c ∈ cs, c.Formal) ∧
      ∀ m, cs.all (·.truth m) = hs.all (·.term.holds m) := by
  induction hs generalizing w cs with
  | nil =>
    cases h
    exact ⟨fun _ => rfl, nofun, fun _ => rfl⟩
  | cons k hs ih =>
    rw [List.mapM_cons] at h
    obtain ⟨c, w₁, hc, h₁⟩ := bind_ok h
    obtain ⟨rest, w₂, hrest, h₂⟩ := bind_ok h₁
    cases h₂
    obtain ⟨rfl, rfl⟩ := mkGoal_ok hc
    obtain ⟨henv, hformal, htruth⟩ := ih hrest
    refine ⟨fun side => (henv side).trans (by cases side <;> rfl), fun c hc => ?_, fun m => ?_⟩
    · rcases List.mem_cons.mp hc with rfl | hc
      · exact Constr.formal_goal ..
      · exact hformal c hc
    · rw [List.all_cons, List.all_cons, htruth, Constr.truth_goal]

/-- A constraint under conditions. -/
theorem guard_ok {assumes verifies : List Hook} {post c : Constr} (hpost : post.Formal)
    (h : guard assumes verifies post w = .ok c w') :
    (∀ side, w'.env side = w.env side) ∧ c.Formal ∧ ∀ m, c.truth m =
      (!assumes.all (·.term.holds m) || (verifies.all (·.term.holds m) && post.truth m)) := by
  unfold guard at h
  split at h
  · rename_i hnone
    obtain ⟨ha, hv⟩ := Bool.and_eq_true_iff.mp hnone
    cases h
    rw [List.isEmpty_iff.mp ha, List.isEmpty_iff.mp hv]
    exact ⟨fun _ => rfl, hpost, fun _ => rfl⟩
  · obtain ⟨hyps, w₁, hhyps, h₁⟩ := bind_ok h
    obtain ⟨goals, w₂, hgoals, h₂⟩ := bind_ok h₁
    obtain ⟨rfl, rfl⟩ := mkClause_ok h₂
    obtain ⟨henv₁, hformal₁, htruth₁⟩ := goals_ok hhyps
    obtain ⟨henv₂, hformal₂, htruth₂⟩ := goals_ok hgoals
    have hall : ∀ c ∈ goals ++ [post], c.Formal := fun c hc =>
      (List.mem_append.mp hc).elim (hformal₂ c) fun hc => List.mem_singleton.mp hc ▸ hpost
    refine ⟨fun side => ?_, Constr.formal_clause hformal₁ hall, fun m => ?_⟩
    · exact (by cases side <;> rfl : _ = w₂.env side).trans ((henv₂ side).trans (henv₁ side))
    · rw [Constr.truth_clause hformal₁ hall, htruth₁, List.all_append, htruth₂, List.all_cons,
        List.all_nil, Bool.and_true]

variable {Q : Store → Duty → Bool → Prop} {T : Table Var SomeTerm} {hs : List Hook}

theorem Tells.select_after (h : Tells Q T hs) (d : Duty) : select hs d .after = [] := by
  refine List.filter_eq_nil_iff.mpr fun k hk hsel => ?_
  have hafter := of_decide_eq_true (Bool.and_eq_true_iff.mp hsel).2
  cases (h.before k hk).symm.trans hafter

/-- The conditions of a duty hold if none is told that does not. -/
theorem Tells.all_iff (h : Tells Q T hs) {V : Table Var SomeTerm} (hV : Table.Grows T V) (m : Model)
    (d : Duty) : (select hs d .before).all (·.term.holds m) ↔ ¬ Q (m.store V) d false := by
  rw [← h.tells V m d false hV, List.all_eq_true]
  constructor
  · rintro hall ⟨k, hk, rfl, hfalse⟩
    have hsel : k ∈ select hs k.duty .before := by
      refine List.mem_filter.mpr ⟨hk, ?_⟩
      rw [h.before k hk]
      simp
    rw [hall k hsel] at hfalse
    cases hfalse
  · intro hno k hk
    obtain ⟨hk, hsel⟩ := List.mem_filter.mp hk
    refine Bool.not_eq_false _ ▸ fun hfalse => hno ⟨k, hk, ?_, hfalse⟩
    exact of_decide_eq_true (Bool.and_eq_true_iff.mp hsel).1

/-- A constraint under the conditions of an expression is one that accepts the reading of it. -/
theorem Tells.guards (h : Tells Q T hs) {V : Table Var SomeTerm} (hV : Table.Grows T V) (m : Model)
    (b : Bool) : (!(select hs .assume .before).all (·.term.holds m) ||
      ((select hs .verify .before).all (·.term.holds m) && b)) = true ↔
      Q (m.store V) .assume false ∨ ¬ Q (m.store V) .verify false ∧ b = true := by
  rw [Bool.or_eq_true, Bool.and_eq_true, h.all_iff hV m .verify, Bool.not_eq_true',
    ← Bool.not_eq_true, h.all_iff hV m .assume, not_not]

end Walk

/-! ### Valid accesses -/

/-- The address lies between the bounds. -/
def Within (bounds : Int × Int) (a : Nat) : Prop := bounds.1 ≤ a ∧ a ≤ bounds.2

/-- The bounds are addresses of the width, in order. -/
def Ordered (w : Nat) (bounds : Int × Int) : Prop :=
  0 ≤ bounds.1 ∧ bounds.1 ≤ bounds.2 ∧ bounds.2 < 2 ^ w

instance (w : Nat) (bounds : Int × Int) : Decidable (Ordered w bounds) :=
  inferInstanceAs (Decidable (_ ∧ _ ∧ _))

theorem Ordered.between_iff {w : Nat} {bounds : Int × Int} (hb : Ordered w bounds) (x : BitVec w) :
    between bounds x ↔ Within bounds x.toNat := by
  obtain ⟨hlo, hle, hhi⟩ := hb
  have htoNat {b : Int} (h₀ : 0 ≤ b) (h₁ : b < 2 ^ w) : ((BitVec.ofInt w b).toNat : Int) = b := by
    rw [BitVec.toNat_ofInt, Int.toNat_of_nonneg (Int.emod_nonneg _ (by positivity))]
    exact Int.emod_eq_of_lt h₀ (by exact_mod_cast h₁)
  have hfirst := htoNat hlo (hle.trans_lt hhi)
  have hlast := htoNat (hlo.trans hle) hhi
  rw [between, Within, Bool.and_eq_true, decide_eq_true_iff, decide_eq_true_iff]
  omega

namespace Regions

/-- The address lies in the stack or in the heap. -/
def Covers (r : Regions) (a : Nat) : Prop := Within r.stack a ∨ Within r.heap a

/-- All bytes of an access of so many bytes at an address lie in the stack or in the heap. -/
def CoversBytes (r : Regions) (w a n : Nat) : Prop := ∀ i < n, r.Covers ((a + i) % 2 ^ w)

/-- All addresses lie in the stack or in the heap. -/
def CoversAll (r : Regions) (w : Nat) : Prop := ∀ a < 2 ^ w, r.Covers a

variable {w n a top : Nat} {r : Regions} {bounds : Int × Int}

/-- The address of the last byte of an access. -/
theorem toNat_last {size : Int} (hn : size / 8 = n) (hpos : 1 ≤ n) (hfit : n ≤ 2 ^ w) (x : BitVec w) :
    (x + BitVec.ofInt w (size / 8 - 1)).toNat = (x.toNat + (n - 1)) % 2 ^ w := by
  have hsize : size / 8 - 1 = ((n - 1 : Nat) : Int) := by omega
  rw [hsize, BitVec.ofInt_natCast, BitVec.toNat_add, BitVec.toNat_ofNat,
    Nat.mod_eq_of_lt (show n - 1 < 2 ^ w by omega)]

section

variable (hpos : 1 ≤ n) (hfirst : Within bounds a)
  (hlast : Within bounds ((a + (n - 1)) % top))

include hpos hfirst hlast

/-- Between the ends of an access that does not wrap around there are all of its bytes. -/
theorem within_of_le (hle : a + n ≤ top) {i : Nat} (hi : i < n) : Within bounds ((a + i) % top) := by
  rw [Nat.mod_eq_of_lt (show a + (n - 1) < top by omega)] at hlast
  rw [Nat.mod_eq_of_lt (show a + i < top by omega)]
  unfold Within at hfirst hlast ⊢
  omega

/-- Between the ends of an access that wraps around there is all that it leaves out. -/
theorem within_or_accessed (ha : a < top) (hfit : n ≤ top) (hlt : top < a + n) {y : Nat} (hy : y < top) :
    Within bounds y ∨ ∃ i < n, (a + i) % top = y := by
  have hend : (a + (n - 1)) % top = a + (n - 1) - top := by
    rw [Nat.mod_eq_sub_mod (show top ≤ a + (n - 1) by omega), Nat.mod_eq_of_lt (by omega)]
  rw [hend] at hlast
  by_cases hbehind : a ≤ y
  · refine .inr ⟨y - a, by omega, ?_⟩
    rw [Nat.add_sub_of_le hbehind, Nat.mod_eq_of_lt hy]
  by_cases hbefore : y ≤ a + (n - 1) - top
  · refine .inr ⟨top - a + y, by omega, ?_⟩
    rw [show a + (top - a + y) = y + top by omega, Nat.add_mod_right, Nat.mod_eq_of_lt hy]
  · refine .inl ?_
    unfold Within at hfirst hlast ⊢
    omega

end

/-- All bytes of an admitted access lie in the stack or in the heap just if the access does not wrap
around, or there are no other addresses at all. -/
theorem covers_iff_of_admits (hstack : Ordered w r.stack) (hheap : Ordered w r.heap) {size : Int}
    (hn : size / 8 = n) (hpos : 1 ≤ n) (hfit : n ≤ 2 ^ w) {x : BitVec w} (h : r.admits x size) :
    r.CoversBytes w x.toNat n ↔ x.toNat + n ≤ 2 ^ w ∨ r.CoversAll w := by
  obtain ⟨bounds, hbounds, hfirst, hlast⟩ : ∃ bounds, (∀ y, Within bounds y → r.Covers y) ∧
      Within bounds x.toNat ∧ Within bounds ((x.toNat + (n - 1)) % 2 ^ w) := by
    rw [← toNat_last hn hpos hfit]
    rw [admits, Bool.or_eq_true, Bool.and_eq_true, Bool.and_eq_true, hstack.between_iff,
      hstack.between_iff, hheap.between_iff, hheap.between_iff] at h
    rcases h with h | h
    · exact ⟨r.stack, fun _ => .inl, h⟩
    · exact ⟨r.heap, fun _ => .inr, h⟩
  constructor
  · intro hall
    refine or_iff_not_imp_left.mpr fun hlt y hy => ?_
    rcases within_or_accessed hpos hfirst hlast x.isLt hfit (Nat.lt_of_not_le hlt) hy with hin | ⟨i, hi, rfl⟩
    · exact hbounds y hin
    · exact hall i hi
  · rintro (hle | hall) i hi
    · exact hbounds _ (within_of_le hpos hfirst hlast hle hi)
    · exact hall _ (Nat.mod_lt _ (Nat.two_pow_pos w))

example : (Regions.mk (256, 511) (1, 0xffffffff)).admits 0xffffffff#32 24 = true := by decide

end Regions

namespace Walk

variable {side : Side} {w w' : World}

/-- The condition of an access that is to be valid is about its address, and where it holds, all bytes
of the access lie in the stack or in the heap just if the access does not wrap around, or there are no
other addresses at all. -/
theorem validAccess_covers {access : Access} {duty : Duty} {e addr : Exp} {size : Int} {k n : Nat}
    {x : Term (.bv k)} (ha : e.Accesses access addr size)
    (hx : translate side addr w = .ok ⟨.bv k, x⟩ w') (hstack : Ordered k (w.env side).stack)
    (hheap : Ordered k (w.env side).heap) (hn : size / 8 = n) (hpos : 1 ≤ n) (hfit : n ≤ 2 ^ k) :
    Stands (w.env side).vars addr ⟨.bv k, x⟩ ∧ ∃ hook,
      sideCondition side e (.validAccess access duty) w = .ok (some hook) w' ∧
      hook.duty = duty ∧ hook.placement = .before ∧ ∀ m, hook.term.holds m →
        (Regions.CoversBytes ⟨(w.env side).stack, (w.env side).heap⟩ k (x.bits m).toNat n ↔
          (x.bits m).toNat + n ≤ 2 ^ k ∨
            Regions.CoversAll ⟨(w.env side).stack, (w.env side).heap⟩ k) := by
  obtain ⟨hd, hst⟩ := translate_ok hx
  obtain ⟨names, henv, -⟩ := hd.env
  refine ⟨hst, ⟨duty, .before, "valid " ++ accessName access ++ ": " ++ addr.toText,
    validEnds (w'.env side) x size⟩, ?_, rfl, rfl, fun m hm => ?_⟩
  · rw [sideCondition, accessed?_eq_some.mpr ha]
    dsimp only
    exact (bind_of_ok hx).trans rfl
  · rw [Regions.holds_validEnds, henv] at hm
    exact Regions.covers_iff_of_admits hstack hheap hn hpos hfit hm

/-- All addresses but zero are in the heap. -/
def roomy : World where
  orig := { Env.start .arm [] with
    stack := (256, 511)
    heap := (1, 0xffffffff)
    vars := [(⟨"R0", .word 32⟩, ⟨.bv 32, .const "R0" (.bv 32)⟩)] }
  mod := Env.start .arm []
  nodes := 0
  translations := 0

/-- Three bytes are read. -/
def readOfThree : Exp := .load (.var ⟨"mem", .memory 32 8⟩) (.var ⟨"R0", .word 32⟩) .little 24

theorem validAccess_covers_roomy : ∃ w',
    readOfThree.Accesses .load (.var ⟨"R0", .word 32⟩) 24 ∧
    translate .orig (.var ⟨"R0", .word 32⟩) roomy = .ok ⟨.bv 32, .const "R0" (.bv 32)⟩ w' ∧
    Ordered 32 roomy.orig.stack ∧ Ordered 32 roomy.orig.heap ∧
    Stands roomy.orig.vars (.var ⟨"R0", .word 32⟩) ⟨.bv 32, .const "R0" (.bv 32)⟩ ∧ ∃ hook,
      sideCondition .orig readOfThree (.validAccess .load .verify) roomy = .ok (some hook) w' ∧
      hook.duty = .verify ∧ hook.placement = .before ∧ ∀ m, hook.term.holds m →
        (Regions.CoversBytes ⟨roomy.orig.stack, roomy.orig.heap⟩ 32
            (m.const "R0" (.bv 32)).toNat 3 ↔
          (m.const "R0" (.bv 32)).toNat + 3 ≤ 2 ^ 32 ∨
            Regions.CoversAll ⟨roomy.orig.stack, roomy.orig.heap⟩ 32) := by
  have ha : readOfThree.Accesses .load (.var ⟨"R0", .word 32⟩) 24 := .load
  have hx : translate .orig (.var ⟨"R0", .word 32⟩) roomy =
    .ok ⟨.bv 32, .const "R0" (.bv 32)⟩ roomy := rfl
  refine ⟨roomy, ha, hx, by decide, by decide, ?_⟩
  exact validAccess_covers ha hx (by decide) (by decide) (by decide) (by decide) (by decide)

end Walk

end Precond
