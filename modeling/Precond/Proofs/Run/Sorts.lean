import Precond.Proofs.Run.Exp

/-! Expressions whose parts fit, with the sorts of their values. An unknown expression has none: its
value is not determined. What has a sort has the sort of a value that there is
(`IR.Exp.HasSort.positive`), and reads a variable only where that has a sort of its own. -/

namespace Precond

open IR

/-- Words have bits, memories have addresses and cells. -/
def TSort.Positive : TSort → Prop
  | .bool => True
  | .bv w => 0 < w
  | .mem a c => 0 < a ∧ 0 < c

theorem IR.Ty.sort_positive {type : Ty} {s : TSort} (h : type.sort = .ok s) : s.Positive := by
  cases type with
  | word w =>
    rw [Ty.sort] at h
    split at h
    · rename_i hw
      cases h
      show 0 < w.toNat
      omega
    · cases h
  | memory a c =>
    rw [Ty.sort] at h
    split at h
    · rename_i hac
      cases h
      exact hac
    · cases h

namespace IR

def BinOp.isComparison : BinOp → Bool
  | eq | ne | ult | ule | slt | sle => true
  | _ => false

namespace Exp

/-- The parts of the expression fit, and it has values of the sort. The amount of a shift and the
condition of a choice are words of any width. -/
inductive HasSort : Exp → TSort → Prop
  | var : v.type.sort = .ok s → HasSort (.var v) s
  | lit {x : BitVec w} : 0 < w → HasSort (.lit x) (.bv w)
  | load : HasSort mem (.mem a c) → HasSort addr (.bv a) → 0 < size → (c : Int) ∣ size →
      HasSort (.load mem addr endian size) (.bv size.toNat)
  | store {w : Nat} {size : Int} : HasSort mem (.mem a c) → HasSort addr (.bv a) →
      HasSort value (.bv w) → size = w → (c : Int) ∣ size →
      HasSort (.store mem addr value endian size) (.mem a c)
  | arith : op.isShift = false → op.isComparison = false → HasSort l (.bv w) → HasSort r (.bv w) →
      HasSort (.bin op l r) (.bv w)
  | compare : op.isComparison = true → HasSort l (.bv w) → HasSort r (.bv w) →
      HasSort (.bin op l r) (.bv 1)
  | shift : op.isShift = true → HasSort l (.bv w) → HasSort r (.bv v) →
      HasSort (.bin op l r) (.bv w)
  | un : HasSort x (.bv w) → HasSort (.un op x) (.bv w)
  | resize {k : CastKind} {width : Int} : k = .unsigned ∨ k = .signed → 0 < width →
      HasSort x (.bv w) → HasSort (.cast k width x) (.bv width.toNat)
  | cut {k : CastKind} {width : Int} {w : Nat} : k = .high ∨ k = .low → 0 < width → width ≤ w →
      HasSort x (.bv w) → HasSort (.cast k width x) (.bv width.toNat)
  | ite : HasSort c (.bv w) → HasSort yes s → HasSort no s → HasSort (.ite c yes no) s
  | extract {hi lo : Int} {w : Nat} : 0 ≤ lo → lo ≤ hi → hi < w → HasSort x (.bv w) →
      HasSort (.extract hi lo x) (.bv (hi - lo + 1).toNat)
  | concat : HasSort l (.bv w) → HasSort r (.bv v) → HasSort (.concat l r) (.bv (w + v))
  | letIn {v : Var} {s s' : TSort} {value body : Exp} : v.type.sort = .ok s → HasSort value s →
      HasSort body s' → HasSort (.letIn v value body) s'

theorem HasSort.positive {e : Exp} {s : TSort} (h : e.HasSort s) : s.Positive := by
  induction h with
  | var hv => exact Ty.sort_positive hv
  | lit hw => exact hw
  | load _ _ hsize =>
    show 0 < _
    omega
  | store _ _ _ _ _ ihm => exact ihm
  | arith _ _ _ _ ihl => exact ihl
  | compare => exact Nat.one_pos
  | shift _ _ _ ihl => exact ihl
  | un _ ih => exact ih
  | resize _ hwidth | cut _ hwidth =>
    show 0 < _
    omega
  | ite _ _ _ _ ihy => exact ihy
  | extract =>
    show 0 < _
    omega
  | concat _ _ ihl _ =>
    have hl : 0 < _ := ihl
    exact Nat.add_pos_left hl _
  | letIn _ _ _ _ ihb => exact ihb

theorem HasSort.known {e : Exp} {s : TSort} (h : e.HasSort s) : e.known := by
  induction h with
  | var | lit => rfl
  | un _ ih | resize _ _ _ ih | cut _ _ _ _ ih | extract _ _ _ _ ih => exact ih
  | arith _ _ _ _ ihl ihr | compare _ _ _ ihl ihr | shift _ _ _ ihl ihr | concat _ _ ihl ihr =>
    simp [Exp.known, ihl, ihr]
  | load _ _ _ _ ihm iha => simp [Exp.known, ihm, iha]
  | store _ _ _ _ _ ihm iha ihv => simp [Exp.known, ihm, iha, ihv]
  | ite _ _ _ ihc ihy ihn => simp [Exp.known, ihc, ihy, ihn]
  | letIn _ _ _ ihv ihb => simp [Exp.known, ihv, ihb]

end Exp

end IR

end Precond
