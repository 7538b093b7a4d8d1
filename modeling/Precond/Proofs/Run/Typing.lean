import Precond.Proofs.Term.Success
import Precond.Walk.Translate

/-! What the translation of expressions takes for granted. Operands of different widths and words in
the place of memories are refused, but no one looks at the width of an address, at widths that are
not positive, or at what a side condition asks the width of. Expressions for which these are in order
are safe; well-sorted ones are (`IR.Exp.HasSort.safe`).

The typing rules of expressions. Other than the sorts of values, types are given to unknown
expressions too; on the rest the two agree (`IR.Exp.hasSort_iff`). An expression has one type at most,
which is the one that is read off it (`IR.Exp.HasType.sort?_eq`). -/

namespace Precond

open IR

namespace IR

def Ty.sort? (type : Ty) : Option TSort := type.sort.toOption

theorem Ty.sort?_eq_some {type : Ty} {s : TSort} : type.sort? = some s ↔ type.sort = .ok s := by
  unfold sort?
  cases type.sort <;> simp [Except.toOption]

/-- The variable is of a sort. -/
def Var.sorted (v : Var) : Bool := v.type.sort?.isSome

theorem Var.sorted_iff {v : Var} : v.sorted ↔ ∃ s, v.type.sort = .ok s := by
  rw [Var.sorted, Option.isSome_iff_exists]
  simp only [Ty.sort?_eq_some]

namespace Exp

/-- The sort of the term that an expression is translated to, if it is translated. -/
def sort? : Exp → Option TSort
  | var v => v.type.sort?
  | @lit w _ => some (.bv w)
  | load _ _ _ size => some (.bv size.toNat)
  | store mem _ _ _ _ => mem.sort?
  | bin op l _ => if op.isComparison then some (.bv 1) else l.sort?
  | un _ x => x.sort?
  | cast _ width _ => some (.bv width.toNat)
  | ite _ yes _ => yes.sort?
  | extract hi lo _ => some (.bv (hi - lo + 1).toNat)
  | concat l r =>
    match l.sort?, r.sort? with
    | some (.bv w), some (.bv v) => some (.bv (w + v))
    | _, _ => none
  | unknown _ type => type.sort?
  | letIn _ _ body => body.sort?

/-- What has the sort, if it has any, is a word. -/
def wordy : Option TSort → Bool
  | none | some (.bv _) => true
  | some .bool | some (.mem ..) => false

/-- Addresses of the memory are as wide as the word. -/
def addresses : Option TSort → Option TSort → Bool
  | some (.mem a _), some (.bv w) => w == a
  | _, _ => true

/-- What the translation of an expression takes for granted, apart from that of its parts. -/
def safe : Exp → Bool
  | @lit w _ => 0 < w
  | cast _ width _ => 0 < width
  | load mem addr _ size => 0 < size && addresses mem.sort? addr.sort?
  | store mem addr _ _ _ => addresses mem.sort? addr.sort?
  | letIn v value _ => value.sort?.all fun s => v.type.sort? == some s
  | unknown _ type => type.sort?.isSome
  | var _ | bin .. | un .. | ite .. | extract .. | concat .. => true

end Exp

end IR

open Walk in
/-- What a side rule takes for granted of an expression. -/
def SideRule.safe (e : Exp) : SideRule → Bool
  | .nonNull access _ | .validAccess access _ => (accessed? access e).all fun a => Exp.wordy a.1.sort?
  | .nonZeroDivisor =>
    match e with
    | .bin op _ divisor => !divisions.contains op || Exp.wordy divisor.sort?
    | _ => true
  | .offsetRead width _ =>
    match e with
    | .load (.var mem) _ _ _ => 0 < width && Exp.addresses mem.type.sort? (some (.bv width))
    | _ => true
  | .custom .. => false

namespace IR

/-- All parts of the expression are safe, also under side rules. -/
def Exp.safeUnder (rules : List SideRule) (e : Exp) : Bool :=
  e.walk.all fun e' => e'.safe && rules.all (·.safe e')

/-- The expressions that are translated for an element. -/
def Elt.translated : Elt → List Exp
  | .phi p => p.values.map (·.2)
  | .define d => [d.rhs]
  | .jump j => [j.cond]

/-- A block without a name is lost to the block that runs into it. -/
def Sub.safeUnder (rules : List SideRule) (s : Sub) : Bool :=
  s.vars.all (·.sorted) && s.blks.all fun b =>
    b.tid != "" && b.elts.all fun e => e.translated.all (·.safeUnder rules)

/-! ### Well-sorted expressions -/

theorem Exp.HasSort.sort?_eq {e : Exp} {s : TSort} (h : e.HasSort s) : e.sort? = some s := by
  induction h with
  | var hv => exact Ty.sort?_eq_some.mpr hv
  | arith _ hc _ _ ihl => rw [Exp.sort?, hc, if_neg Bool.false_ne_true, ihl]
  | compare hc => rw [Exp.sort?, if_pos hc]
  | shift hs _ _ ihl =>
    rw [Exp.sort?, Term.isComparison_of_isShift hs, if_neg Bool.false_ne_true, ihl]
  | concat _ _ ihl ihr => rw [Exp.sort?, ihl, ihr]
  | un _ ih => exact ih
  | store _ _ _ _ _ ih => exact ih
  | ite _ _ _ _ ih => exact ih
  | letIn _ _ _ _ ih => exact ih
  | lit | load | resize | cut | extract => rfl

/-- What is taken for granted holds of a well-sorted expression. -/
theorem Exp.HasSort.safe {e : Exp} {s : TSort} (h : e.HasSort s) : e.safeUnder [] := by
  simp only [Exp.safeUnder, List.all_eq_true, List.all_nil, Bool.and_true]
  induction h with
  | var | lit => simp_all [Exp.walk, Exp.safe]
  | load hm ha h0 _ ihm iha =>
    simp only [Exp.walk, List.forall_mem_cons, List.forall_mem_append]
    exact ⟨by simp [Exp.safe, addresses, hm.sort?_eq, ha.sort?_eq, h0], ihm, iha⟩
  | store hm ha _ _ _ ihm iha ihv =>
    simp only [Exp.walk, List.forall_mem_cons, List.forall_mem_append]
    exact ⟨by simp [Exp.safe, addresses, hm.sort?_eq, ha.sort?_eq], ⟨ihm, iha⟩, ihv⟩
  | arith _ _ _ _ ihl ihr | compare _ _ _ ihl ihr | shift _ _ _ ihl ihr | concat _ _ ihl ihr =>
    simp only [Exp.walk, List.forall_mem_cons, List.forall_mem_append]
    exact ⟨rfl, ihl, ihr⟩
  | un _ ih | extract _ _ _ _ ih => exact List.forall_mem_cons.mpr ⟨rfl, ih⟩
  | resize _ h0 _ ih | cut _ h0 _ _ ih =>
    exact List.forall_mem_cons.mpr ⟨by simp [Exp.safe, h0], ih⟩
  | ite _ _ _ ihc ihy ihn =>
    simp only [Exp.walk, List.forall_mem_cons, List.forall_mem_append]
    exact ⟨rfl, ⟨ihc, ihy⟩, ihn⟩
  | letIn hv hvalue _ ihv ihb =>
    simp only [Exp.walk, List.forall_mem_cons, List.forall_mem_append]
    exact ⟨by simp [Exp.safe, hvalue.sort?_eq, Ty.sort?_eq_some.mpr hv], ihv, ihb⟩

end IR

/-! ### Typing rules -/

namespace IR.Exp

/-- The typing rules. Operands of a shift and the condition of a choice may have other widths; an
access takes a positive number of whole cells; a binding has the type of its variable. -/
inductive HasType : Exp → TSort → Prop
  | var : v.type.sort = .ok s → HasType (.var v) s
  | lit {x : BitVec w} : 0 < w → HasType (.lit x) (.bv w)
  | load : HasType mem (.mem a c) → HasType addr (.bv a) → 0 < size → (c : Int) ∣ size →
      HasType (.load mem addr endian size) (.bv size.toNat)
  | store {w : Nat} {size : Int} : HasType mem (.mem a c) → HasType addr (.bv a) →
      HasType value (.bv w) → size = w → (c : Int) ∣ size →
      HasType (.store mem addr value endian size) (.mem a c)
  | arith : op.isShift = false → op.isComparison = false → HasType l (.bv w) → HasType r (.bv w) →
      HasType (.bin op l r) (.bv w)
  | compare : op.isComparison = true → HasType l (.bv w) → HasType r (.bv w) →
      HasType (.bin op l r) (.bv 1)
  | shift : op.isShift = true → HasType l (.bv w) → HasType r (.bv v) →
      HasType (.bin op l r) (.bv w)
  | un : HasType x (.bv w) → HasType (.un op x) (.bv w)
  | resize {k : CastKind} {width : Int} : k = .unsigned ∨ k = .signed → 0 < width →
      HasType x (.bv w) → HasType (.cast k width x) (.bv width.toNat)
  | cut {k : CastKind} {width : Int} {w : Nat} : k = .high ∨ k = .low → 0 < width → width ≤ w →
      HasType x (.bv w) → HasType (.cast k width x) (.bv width.toNat)
  | ite : HasType c (.bv w) → HasType yes s → HasType no s → HasType (.ite c yes no) s
  | extract {hi lo : Int} {w : Nat} : 0 ≤ lo → lo ≤ hi → hi < w → HasType x (.bv w) →
      HasType (.extract hi lo x) (.bv (hi - lo + 1).toNat)
  | concat : HasType l (.bv w) → HasType r (.bv v) → HasType (.concat l r) (.bv (w + v))
  | unknown : type.sort = .ok s → HasType (.unknown desc type) s
  | letIn {v : Var} {s s' : TSort} {value body : Exp} : v.type.sort = .ok s → HasType value s →
      HasType body s' → HasType (.letIn v value body) s'

variable {e : Exp} {s s' : TSort}

/-- Values have sorts where nothing is unknown, and these are the types. -/
theorem hasSort_iff : e.HasSort s ↔ e.HasType s ∧ e.known := by
  constructor
  · refine fun h => ⟨?_, h.known⟩
    induction h with
    | var hv => exact .var hv
    | lit hw => exact .lit hw
    | load _ _ h0 hc ihm iha => exact .load ihm iha h0 hc
    | store _ _ _ hsize hc ihm iha ihv => exact .store ihm iha ihv hsize hc
    | arith hs hc _ _ ihl ihr => exact .arith hs hc ihl ihr
    | compare hc _ _ ihl ihr => exact .compare hc ihl ihr
    | shift hs _ _ ihl ihr => exact .shift hs ihl ihr
    | un _ ih => exact .un ih
    | resize hk h0 _ ih => exact .resize hk h0 ih
    | cut hk h0 hw _ ih => exact .cut hk h0 hw ih
    | ite _ _ _ ihc ihy ihn => exact .ite ihc ihy ihn
    | extract h0 hlo hhi _ ih => exact .extract h0 hlo hhi ih
    | concat _ _ ihl ihr => exact .concat ihl ihr
    | letIn hv _ _ ihv ihb => exact .letIn hv ihv ihb
  · rintro ⟨h, hk⟩
    induction h with
      simp only [known, Bool.and_eq_true] at hk
    | var hv => exact .var hv
    | lit hw => exact .lit hw
    | load _ _ h0 hc ihm iha => exact .load (ihm hk.1) (iha hk.2) h0 hc
    | store _ _ _ hsize hc ihm iha ihv =>
      exact .store (ihm hk.1.1) (iha hk.1.2) (ihv hk.2) hsize hc
    | arith hs hc _ _ ihl ihr => exact .arith hs hc (ihl hk.1) (ihr hk.2)
    | compare hc _ _ ihl ihr => exact .compare hc (ihl hk.1) (ihr hk.2)
    | shift hs _ _ ihl ihr => exact .shift hs (ihl hk.1) (ihr hk.2)
    | un _ ih => exact .un (ih hk)
    | resize hw h0 _ ih => exact .resize hw h0 (ih hk)
    | cut hw h0 hle _ ih => exact .cut hw h0 hle (ih hk)
    | ite _ _ _ ihc ihy ihn => exact .ite (ihc hk.1.1) (ihy hk.1.2) (ihn hk.2)
    | extract h0 hlo hhi _ ih => exact .extract h0 hlo hhi (ih hk)
    | concat _ _ ihl ihr => exact .concat (ihl hk.1) (ihr hk.2)
    | unknown => cases hk
    | letIn hv _ _ ihv ihb => exact .letIn hv (ihv hk.1) (ihb hk.2)

theorem HasType.sort?_eq (h : e.HasType s) : e.sort? = some s := by
  induction h with
  | var hv | unknown hv => exact Ty.sort?_eq_some.mpr hv
  | arith _ hc _ _ ihl => rw [sort?, hc, if_neg Bool.false_ne_true, ihl]
  | compare hc => rw [sort?, if_pos hc]
  | shift hs _ _ ihl =>
    rw [sort?, Term.isComparison_of_isShift hs, if_neg Bool.false_ne_true, ihl]
  | concat _ _ ihl ihr => rw [sort?, ihl, ihr]
  | un _ ih | store _ _ _ _ _ ih | ite _ _ _ _ ih | letIn _ _ _ _ ih => exact ih
  | lit | load | resize | cut | extract => rfl

theorem HasType.unique (h : e.HasType s) (h' : e.HasType s') : s = s' :=
  Option.some_injective _ (h.sort?_eq.symm.trans h'.sort?_eq)

theorem HasType.positive (h : e.HasType s) : s.Positive := by
  induction h with
  | var hv | unknown hv => exact Ty.sort_positive hv
  | lit hw => exact hw
  | compare => exact Nat.one_pos
  | load _ _ hpos | resize _ hpos | cut _ hpos =>
    show 0 < Int.toNat _
    omega
  | extract =>
    show 0 < Int.toNat _
    omega
  | store _ _ _ _ _ ih | arith _ _ _ _ ih | shift _ _ _ ih | un _ ih | ite _ _ _ _ ih
  | letIn _ _ _ _ ih => exact ih
  | concat _ _ ih => exact Nat.add_pos_left (show 0 < _ from ih) _

end IR.Exp

end Precond
