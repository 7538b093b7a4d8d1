import Precond.Proofs.Run.Value
import Precond.Term.Build

/-! What an expression of lifted code yields in a store. An unknown expression yields any value of
its type; all other expressions yield one value at most (`Exp.Yields.unique`). -/

namespace Precond

open IR

/-- The values of all variables. -/
abbrev Store := Var → Value

namespace IR.Exp

inductive Yields : Store → Exp → Value → Prop
  | var : Yields σ (.var v) (σ v)
  | lit {x : BitVec w} : w ≠ 0 → Yields σ (.lit x) (.word x)
  | load : Yields σ mem m → Yields σ addr a → Value.load? endian size m a = some x →
      Yields σ (.load mem addr endian size) x
  | store : Yields σ mem m → Yields σ addr a → Yields σ value y →
      Value.store? endian size m a y = some x → Yields σ (.store mem addr value endian size) x
  | bin : Yields σ l y → Yields σ r z → op.value? y z = some x → Yields σ (.bin op l r) x
  | un : Yields σ a y → op.value? y = some x → Yields σ (.un op a) x
  | cast {k : CastKind} : Yields σ a y → k.value? width y = some x → Yields σ (.cast k width a) x
  | ite : Yields σ c b → Yields σ yes y → Yields σ no n → Value.choose? b y n = some x →
      Yields σ (.ite c yes no) x
  | extract : Yields σ a y → Value.extract? hi lo y = some x → Yields σ (.extract hi lo a) x
  | concat : Yields σ l y → Yields σ r z → Value.concat? y z = some x → Yields σ (.concat l r) x
  | unknown {x : TSort.Val s} : type.sort = .ok s → Yields σ (.unknown desc type) ⟨s, x⟩
  | letIn : Yields σ value y → Yields (Function.update σ v y) body x →
      Yields σ (.letIn v value body) x

/-- No part of the expression is unknown. -/
def known : Exp → Bool
  | var _ | lit _ => true
  | load m a _ _ => m.known && a.known
  | store m a v _ _ => m.known && a.known && v.known
  | bin _ l r | concat l r => l.known && r.known
  | un _ x | cast _ _ x | extract _ _ x => x.known
  | ite c y n => c.known && y.known && n.known
  | unknown .. => false
  | letIn _ v b => v.known && b.known

theorem Yields.unique {e : Exp} (he : e.known) (hx : e.Yields σ x) (hy : e.Yields σ y) :
    x = y := by
  induction hx generalizing y with
  | var => cases hy; rfl
  | lit => cases hy; rfl
  | load _ _ hz ihm iha =>
    simp only [known, Bool.and_eq_true] at he
    cases hy with
    | load hm ha hz' =>
      cases ihm he.1 hm
      cases iha he.2 ha
      exact Option.some.inj (hz.symm.trans hz')
  | store _ _ _ hz ihm iha ihv =>
    simp only [known, Bool.and_eq_true] at he
    cases hy with
    | store hm ha hv hz' =>
      cases ihm he.1.1 hm
      cases iha he.1.2 ha
      cases ihv he.2 hv
      exact Option.some.inj (hz.symm.trans hz')
  | bin _ _ hz ihl ihr =>
    simp only [known, Bool.and_eq_true] at he
    cases hy with
    | bin hl hr hz' =>
      cases ihl he.1 hl
      cases ihr he.2 hr
      exact Option.some.inj (hz.symm.trans hz')
  | un _ hz ih =>
    cases hy with
    | un ha hz' =>
      cases ih he ha
      exact Option.some.inj (hz.symm.trans hz')
  | cast _ hz ih =>
    cases hy with
    | cast ha hz' =>
      cases ih he ha
      exact Option.some.inj (hz.symm.trans hz')
  | ite _ _ _ hz ihc ihy ihn =>
    simp only [known, Bool.and_eq_true] at he
    cases hy with
    | ite hc hy hn hz' =>
      cases ihc he.1.1 hc
      cases ihy he.1.2 hy
      cases ihn he.2 hn
      exact Option.some.inj (hz.symm.trans hz')
  | extract _ hz ih =>
    cases hy with
    | extract ha hz' =>
      cases ih he ha
      exact Option.some.inj (hz.symm.trans hz')
  | concat _ _ hz ihl ihr =>
    simp only [known, Bool.and_eq_true] at he
    cases hy with
    | concat hl hr hz' =>
      cases ihl he.1 hl
      cases ihr he.2 hr
      exact Option.some.inj (hz.symm.trans hz')
  | unknown => cases he
  | letIn _ _ ihv ihb =>
    simp only [known, Bool.and_eq_true] at he
    cases hy with
    | letIn hv hb =>
      cases ihv he.1 hv
      exact ihb he.2 hb

/-! ### Parts -/

/-- `P` holds of the expression or of a part of it, in the store in which the part is evaluated: in
the body of a local binding the variable has got its value. Both arms of a choice are parts. -/
inductive Somewhere (P : Store → Exp → Prop) : Store → Exp → Prop
  | here : P σ e → Somewhere P σ e
  | part : e.kind ≠ .letIn → c ∈ e.children → Somewhere P σ c → Somewhere P σ e
  | value : Somewhere P σ value → Somewhere P σ (.letIn v value body)
  | body : Yields σ value y → Somewhere P (Function.update σ v y) body →
    Somewhere P σ (.letIn v value body)

variable {P : Store → Exp → Prop} {σ : Store}

theorem somewhere_iff {e : Exp} (he : e.kind ≠ .letIn) :
    Somewhere P σ e ↔ P σ e ∨ ∃ c ∈ e.children, Somewhere P σ c := by
  constructor
  · intro h
    cases h with
    | here h => exact .inl h
    | part _ hc h => exact .inr ⟨_, hc, h⟩
    | value | body => exact absurd rfl he
  · rintro (h | ⟨c, hc, h⟩)
    · exact .here h
    · exact .part he hc h

theorem somewhere_letIn {v : Var} {value body : Exp} : Somewhere P σ (.letIn v value body) ↔
    (P σ (.letIn v value body) ∨ Somewhere P σ value) ∨
      ∃ y, Yields σ value y ∧ Somewhere P (Function.update σ v y) body := by
  constructor
  · intro h
    cases h with
    | here h => exact .inl (.inl h)
    | part hk => exact absurd rfl hk
    | value h => exact .inl (.inr h)
    | body hy h => exact .inr ⟨_, hy, h⟩
  · rintro ((h | h) | ⟨y, hy, h⟩)
    · exact .here h
    · exact .value h
    · exact .body hy h

theorem Somewhere.mono {Q : Store → Exp → Prop} {e : Exp} (h : Somewhere P σ e)
    (hPQ : ∀ σ e, P σ e → Q σ e) : Somewhere Q σ e := by
  induction h with
  | here h => exact .here (hPQ _ _ h)
  | part hk hc _ ih => exact .part hk hc ih
  | value _ ih => exact .value ih
  | body hy _ ih => exact .body hy ih

theorem not_somewhere {e : Exp} (h : ∀ σ e, ¬ P σ e) : ¬ Somewhere P σ e := by
  intro hs
  induction hs with
  | here hP => exact h _ _ hP
  | part _ _ _ ih | value _ ih | body _ _ ih => exact ih

/-- The condition of a jump that is always taken is not zero. -/
theorem Yields.always : always.Yields σ (.word 1#1) := .lit (by decide)

end IR.Exp

end Precond
