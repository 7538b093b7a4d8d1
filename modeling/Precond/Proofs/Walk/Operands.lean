import Precond.Proofs.Walk.Bindings
import Precond.Proofs.Walk.Hooks

/-! What conditions are about. A condition on the address of an access or on a divisor is made from a
term of its own, for which the operand is translated once more. It is the very term that the operand
has in the result, unless something in the operand is unknown: then it only stands for a value that the
operand yields (`Walk.translateChecked_about`). -/

namespace Precond

open IR

/-- The address of an access, or a divisor. -/
def IR.Exp.operand? : Exp → Option Exp
  | load _ addr _ _ | store _ addr _ _ _ => some addr
  | bin op _ divisor => if op.isDivision then some divisor else none
  | _ => none

/-- The condition of a rule on an expression whose operand has this term. -/
def SideRule.condition? {k : Nat} (env : Env) (e : Exp) (a : Term (.bv k)) : SideRule → Option Hook
  | nonNull access duty => (Walk.accessed? access e).map fun p =>
    ⟨duty, .before, "non-null " ++ Walk.accessName access ++ ": " ++ p.1.toText, a.nonZero⟩
  | validAccess access duty => (Walk.accessed? access e).map fun p =>
    ⟨duty, .before, "valid " ++ Walk.accessName access ++ ": " ++ p.1.toText,
      Walk.validEnds env a p.2⟩
  | nonZeroDivisor =>
    match e with
    | .bin op _ divisor => if op.isDivision then
        some ⟨.verify, .before, "non-zero divisor: " ++ divisor.toText, a.nonZero⟩
      else none
    | _ => none
  | offsetRead .. | custom .. => none

namespace Walk

/-- What rules say one after the other of an expression whose operand has the term `a` in the result.
The term that a condition is on stands for a value of the operand, and is `a` if nothing in the operand
is unknown. -/
inductive Says (env : Env) (V : Table Var SomeTerm) (e : Exp) (a : SomeTerm) :
    List SideRule → List Hook → Prop
  | nil : Says env V e a [] []
  | skip : (∀ k (b : Term (.bv k)), rule.condition? env e b = none) → Says env V e a rules hs →
      Says env V e a (rule :: rules) hs
  | cons {b : Term (.bv k)} : e.operand? = some x → Stands V x ⟨_, b⟩ → (x.known → a = ⟨_, b⟩) →
      rule.condition? env e b = some h → Says env V e a rules hs →
      Says env V e a (rule :: rules) (h :: hs)

/-- The term of an expression, where variables stand for the terms of the table, and the conditions
for it and its parts: those of each access and of each division are about the term that its operand has
there. -/
inductive About (env : Env) : Table Var SomeTerm → Exp → SomeTerm → List Hook → Prop
  | var : V.lookup v = some t → About env V (.var v) t []
  | lit {x : BitVec w} : 0 < w → About env V (.lit x) ⟨_, .op (.bvLit x)⟩ []
  | load : About env V mem m hm → About env V addr a ha →
      Says env V (.load mem addr endian size) a env.sideRules hs →
      Term.load m a size endian = .ok t →
      About env V (.load mem addr endian size) t (hs ++ hm ++ ha)
  | store : About env V mem m hm → About env V addr a ha → About env V value x hx →
      Says env V (.store mem addr value endian size) a env.sideRules hs →
      Term.storeWord m a x size endian = .ok t →
      About env V (.store mem addr value endian size) t (hs ++ hm ++ ha ++ hx)
  | bin : About env V l x hx → About env V r y hy → Says env V (.bin op l r) y env.sideRules hs →
      Term.binary op x y = .ok t → About env V (.bin op l r) t (hs ++ hx ++ hy)
  | un : About env V e x hx → Term.unary op x = .ok t → About env V (.un op e) t hx
  | cast : About env V e x hx → Term.castTo kind width x = .ok t →
      About env V (.cast kind width e) t hx
  | ite : About env V c x hx → About env V l y hy → About env V r z hz →
      Term.choose x y z = .ok t → About env V (.ite c l r) t (hx ++ hy ++ hz)
  | extract : About env V e x hx → Term.extractBits hi lo x = .ok t →
      About env V (.extract hi lo e) t hx
  | concat : About env V l x hx → About env V r y hy → Term.concatWords x y = .ok t →
      About env V (.concat l r) t (hx ++ hy)
  | unknown : type.sort = .ok s → About env V (.unknown desc type) ⟨s, .const n s⟩ []
  | letIn : About env V value x hx → About env (V.put v x) body t ht →
      About env V (.letIn v value body) t (hx ++ ht)

variable {side : Side} {E : Setting} {w w' v : World} {e : Exp} {env : Env}

/-- Rules that ask for nothing but operands say nothing of other expressions. -/
theorem Says.eq_nil {V : Table Var SomeTerm} {a : SomeTerm} {rules : List SideRule} {hs : List Hook}
    (h : Says env V e a rules hs) (he : e.operand? = none) : hs = [] := by
  induction h with
  | nil => rfl
  | skip _ _ ih => exact ih
  | cons hx => cases he.symm.trans hx

/-! ### Rules -/

/-- The term is a translation of the expression in the setting, and its only one if nothing in the
expression is unknown. -/
structure Translates (side : Side) (E : Setting) (x : Exp) (t : SomeTerm) : Prop where
  stands : Stands E.1 x t
  settled {v : World} : x.known → (v.env side).setting = E → translate side x v = .ok t v

/-- In the setting a rule gives nothing for an expression, or its condition on a translation of the
operand. -/
inductive Offers (side : Side) (E : Setting) (env : Env) (e : Exp) (rule : SideRule) :
    Option Hook → Prop
  | nothing : (∀ k (b : Term (.bv k)), rule.condition? env e b = none) → Offers side E env e rule none
  | condition {b : Term (.bv k)} : e.operand? = some x → Translates side E x ⟨_, b⟩ →
      rule.condition? env e b = some h → Offers side E env e rule (some h)

theorem validEnds_policy {k : Nat} {env' : Env} (h : env'.policy = env.policy) (a : Term (.bv k))
    (size : Int) : validEnds env' a size = validEnds env a size :=
  show validEnds env'.policy a size = validEnds env.policy a size from by rw [h]

theorem translate_results (x : Exp) : Results side E (Translates side E x) (translate side x) := by
  intro w t w' hE ht
  refine ⟨?_, fun hx hv => ?_⟩
  · rw [← show (w.env side).vars = E.1 from congrArg Prod.fst hE]
    exact (translate_ok ht).2
  · obtain ⟨r, w₁, hr, h₁⟩ := bind_ok ht
    cases h₁
    exact translate_plainly (fun _ => .pure _) hx hr (hv.trans hE.symm)

/-- The operand is translated for a condition on it. -/
theorem sized_results {x : Exp} {f : (k : Nat) × Term (.bv k) → Walk (Option Hook)}
    {P : Option Hook → Prop}
    (hf : ∀ k (b : Term (.bv k)), Translates side E x ⟨_, b⟩ → Results side E P (f ⟨k, b⟩)) :
    Results side E P (translate side x >>= fun t => (liftM t.sized : Walk _) >>= f) := by
  refine .bind (.translate x) (translate_results x) fun t ht => .lift fun y hy => ?_
  obtain rfl := SomeTerm.sized_eq_ok hy
  exact hf y.1 y.2 ht

theorem accessed_operand {access : Access} {addr : Exp} {size : Int}
    (h : accessed? access e = some (addr, size)) : e.operand? = some addr := by
  cases accessed?_eq_some.mp h <;> rfl

theorem sideCondition_results {rule : SideRule} (hlocal : rule.isLocal) (henv : E.2 = env.policy) :
    Results side E (Offers side E env e rule) (sideCondition side e rule) := by
  cases rule with
  | nonNull access duty =>
    simp only [sideCondition]
    split
    · rename_i hnone
      exact .pure (.nothing fun k b => by rw [SideRule.condition?, hnone]; rfl)
    · rename_i addr size hsome
      refine sized_results fun k b hb => .pure (.condition (accessed_operand hsome) hb ?_)
      rw [SideRule.condition?, hsome]
      rfl
  | validAccess access duty =>
    simp only [sideCondition]
    split
    · rename_i hnone
      exact .pure (.nothing fun k b => by rw [SideRule.condition?, hnone]; rfl)
    · rename_i addr size hsome
      refine sized_results fun k b hb w h w' hE hh => ?_
      obtain ⟨env', w₁, he, h₁⟩ := bind_ok hh
      obtain ⟨rfl, rfl⟩ := env_ok he
      cases h₁
      refine .condition (accessed_operand hsome) hb ?_
      have hpolicy : (w'.env side).policy = env.policy := (congrArg Prod.snd hE).trans henv
      rw [SideRule.condition?, hsome, validEnds_policy hpolicy]
      rfl
  | nonZeroDivisor =>
    unfold sideCondition
    dsimp only
    split
    · rename_i op l divisor
      rw [divisions_contains]
      split
      · rename_i hop
        exact sized_results fun k b hb => .pure (.condition (if_pos hop) hb (if_pos hop))
      · rename_i hop
        exact .pure (.nothing fun k b => if_neg hop)
    · rename_i hno
      refine .pure (.nothing fun k b => ?_)
      unfold SideRule.condition?
      dsimp only
      split
      · exact (hno _ _ _ rfl).elim
      · rfl
  | offsetRead | custom => cases hlocal

/-- Rules say of an expression what there is to say if its operand has the term `a`. -/
def Saying (side : Side) (E : Setting) (env : Env) (e : Exp) (rules : List SideRule) (hs : List Hook) :
    Prop :=
  ∀ a, (∀ x t, e.operand? = some x → Translates side E x t → x.known → a = t) →
    Says env E.1 e a rules hs

theorem sideConditions_results {rules : List SideRule} (hlocal : ∀ r ∈ rules, r.isLocal)
    (henv : E.2 = env.policy) :
    Results side E (Saying side E env e rules) (sideConditions side rules e) := by
  induction rules with
  | nil => exact .pure fun _ _ => .nil
  | cons rule rules ih =>
    have hrule := List.forall_mem_cons.mp hlocal
    refine .bind (.sideCondition (.inl rfl) e) (sideCondition_results hrule.1 henv) fun h hh => ?_
    refine .bind (.sideConditions (.inl rfl) e) (ih hrule.2) fun hs hrest => .pure fun a ha => ?_
    cases hh with
    | nothing hnone => exact .skip hnone (hrest a ha)
    | condition hx ht hc => exact .cons hx ht.stands (ha _ _ hx ht) hc (hrest a ha)

theorem Saying.eq_nil {rules : List SideRule} {hs : List Hook} (h : Saying side E env e rules hs)
    (he : e.operand? = none) : hs = [] :=
  (h ⟨.bool, .truth true⟩ fun _ _ hx => nomatch he.symm.trans hx).eq_nil he

/-! ### Translations -/

/-- The operand is translated again where its term is made, and if nothing in it is unknown this is the
term that each condition is on. -/
theorem Saying.operand {rules : List SideRule} {hs : List Hook} {a : SomeTerm} {x : Exp}
    (h : Saying side E env e rules hs) (he : e.operand? = some x)
    (hv : (v.env side).setting = E)
    (ha : x.known → ∀ v, (v.env side).setting = E → translate side x v = .ok a v) :
    Says env E.1 e a rules hs := by
  refine h a fun y t hy ht hknown => ?_
  cases he.symm.trans hy
  cases (ha hknown v hv).symm.trans (ht.settled hknown hv)
  rfl

/-- What is translated with conditions is translated to the same term without them. -/
theorem translateWith_settles {watch : Exp → Walk (List Hook)} (hw : ∀ e, Leaves side (watch e))
    (e : Exp) : Results side E
      (fun r => e.known → ∀ v, (v.env side).setting = E → translate side e v = .ok r.1 v)
      (translateWith side watch e) :=
  fun _ _ _ hE h hknown _ hv => translate_plainly hw hknown h (hv.trans hE.symm)

/-- The induction is on the expression, with the bindings in force at each part. -/
theorem translateWith_about (hlocal : ∀ r ∈ env.sideRules, r.isLocal) (henv : E.2 = env.policy) :
    Results side E (fun r => About env E.1 e r.1 r.2)
      (translateWith side (sideConditions side env.sideRules) e) := by
  have hwatch (e : Exp) : Leaves side (sideConditions side env.sideRules e) :=
    .sideConditions (.inl rfl) e
  have hleaves (e : Exp) : Leaves side (translateWith side (sideConditions side env.sideRules) e) :=
    .translateWith hwatch e
  have hsay {E : Setting} {e : Exp} (henv : E.2 = env.policy) :
      Results side E (Saying side E env e env.sideRules) (sideConditions side env.sideRules e) :=
    sideConditions_results hlocal henv
  induction e generalizing E with
  | var u =>
    refine .bind (hwatch _) (hsay henv) fun hs hh w r w' hE hr => ?_
    obtain rfl := hh.eq_nil rfl
    have hvars : (w.env side).vars = E.1 := congrArg Prod.fst hE
    obtain ⟨t, w₁, ht, h₁⟩ := bind_ok hr
    obtain ⟨hlookup, rfl⟩ := getVar_ok ht
    cases h₁
    exact .var (hvars ▸ hlookup)
  | @lit width x =>
    refine .bind (hwatch _) (hsay henv) fun hs hh => ?_
    obtain rfl := hh.eq_nil rfl
    split
    · intro w r w' _ hr
      cases hr
    · exact .pure (.lit (Nat.pos_of_ne_zero ‹_›))
  | load mem addr endian size ihm iha =>
    refine .inWorld fun v hv => .bind (hwatch _) (hsay henv) fun hs hh => ?_
    refine .bind (hleaves _) (ihm henv) fun m hm => ?_
    refine .bind (hleaves _) ((iha henv).and (translateWith_settles hwatch _)) fun a ⟨ha, hsame⟩ => ?_
    exact .lift fun t ht => .pure (.load hm ha (hh.operand rfl hv hsame) ht)
  | store mem addr value endian size ihm iha ihx =>
    refine .inWorld fun v hv => .bind (hwatch _) (hsay henv) fun hs hh => ?_
    refine .bind (hleaves _) (ihm henv) fun m hm => ?_
    refine .bind (hleaves _) ((iha henv).and (translateWith_settles hwatch _)) fun a ⟨ha, hsame⟩ => ?_
    refine .bind (hleaves _) (ihx henv) fun x hx => ?_
    exact .lift fun t ht => .pure (.store hm ha hx (hh.operand rfl hv hsame) ht)
  | bin op l r ihl ihr =>
    refine .inWorld fun v hv => .bind (hwatch _) (hsay henv) fun hs hh => ?_
    refine .bind (hleaves _) (ihl henv) fun x hx => ?_
    refine .bind (hleaves _) ((ihr henv).and (translateWith_settles hwatch _)) fun y ⟨hy, hsame⟩ => ?_
    refine .lift fun t ht => .pure (.bin hx hy ?_ ht)
    -- only a division has an operand
    by_cases hop : op.isDivision
    · exact hh.operand (if_pos hop) hv hsame
    · exact hh y.1 fun _ _ hnone => nomatch (if_neg hop).symm.trans hnone
  | un op a ih =>
    refine .bind (hwatch _) (hsay henv) fun hs hh => ?_
    obtain rfl := hh.eq_nil rfl
    refine .bind (hleaves _) (ih henv) fun x hx => ?_
    exact .lift fun t ht => .pure (.un hx ht)
  | cast kind width a ih =>
    refine .bind (hwatch _) (hsay henv) fun hs hh => ?_
    obtain rfl := hh.eq_nil rfl
    refine .bind (hleaves _) (ih henv) fun x hx => ?_
    exact .lift fun t ht => .pure (.cast hx ht)
  | extract hi lo a ih =>
    refine .bind (hwatch _) (hsay henv) fun hs hh => ?_
    obtain rfl := hh.eq_nil rfl
    refine .bind (hleaves _) (ih henv) fun x hx => ?_
    exact .lift fun t ht => .pure (.extract hx ht)
  | ite cond yes no ihc ihy ihn =>
    refine .bind (hwatch _) (hsay henv) fun hs hh => ?_
    obtain rfl := hh.eq_nil rfl
    refine .bind (hleaves _) (ihc henv) fun c hc => ?_
    refine .bind (hleaves _) (ihy henv) fun y hy => ?_
    refine .bind (hleaves _) (ihn henv) fun n hn => ?_
    exact .lift fun t ht => .pure (.ite hc hy hn ht)
  | concat l r ihl ihr =>
    refine .bind (hwatch _) (hsay henv) fun hs hh => ?_
    obtain rfl := hh.eq_nil rfl
    refine .bind (hleaves _) (ihl henv) fun x hx => ?_
    refine .after (.ofExcept _) fun _ => ?_
    refine .bind (hleaves _) (ihr henv) fun y hy => ?_
    exact .lift fun t ht => .pure (.concat hx hy ht)
  | letIn u value body ihv ihb =>
    refine .bind (hwatch _) (hsay henv) fun hs hh => ?_
    obtain rfl := hh.eq_nil rfl
    refine .bind (hleaves _) (ihv henv) fun x hx => ?_
    refine .bind ((hleaves _).binding u x.1) (.binding (ihb henv)) fun y hy => ?_
    exact .pure (.letIn hx hy)
  | unknown text type =>
    refine .bind (hwatch _) (hsay henv) fun hs hh w r w' _ hr => ?_
    obtain rfl := hh.eq_nil rfl
    obtain ⟨t, w₁, ht, h₁⟩ := bind_ok hr
    obtain ⟨-, n, s, hs, rfl⟩ := fresh_ok ht
    cases h₁
    exact .unknown hs

/-- Where the rules ask for nothing but operands, the conditions that come with a translation are about
the terms that the operands have in its result. -/
theorem translateChecked_about (hlocal : ∀ r ∈ (w.env side).sideRules, r.isLocal) {t : SomeTerm}
    {hs : List Hook} (h : translateChecked side e w = .ok (t, hs) w') :
    About (w.env side) (w.env side).vars e t hs := by
  let w₀ : World := { w with translations := w.translations + 1 }
  have henv : w₀.env side = w.env side := by cases side <;> rfl
  have h₀ : translateWith side (sideConditions side (w₀.env side).sideRules) e w₀ = .ok (t, hs) w' := h
  rw [henv] at h₀
  exact translateWith_about hlocal rfl w₀ (t, hs) w' (counted_setting w _) h₀

theorem translateChecked_about_shadowing : (∀ r ∈ (checking.env .orig).sideRules, r.isLocal) ∧
    ∃ t hs w', translateChecked .orig shadowing checking = .ok (t, hs) w' ∧ hs ≠ [] ∧
      About (checking.env .orig) (checking.env .orig).vars shadowing t hs := by
  have hlocal : ∀ r ∈ (checking.env .orig).sideRules, r.isLocal := by decide
  obtain ⟨t, hs, w', h, hne⟩ : ∃ t hs w',
      translateChecked .orig shadowing checking = .ok (t, hs) w' ∧ hs ≠ [] :=
    ⟨_, _, _, rfl, List.cons_ne_nil _ _⟩
  exact ⟨hlocal, t, hs, w', h, hne, translateChecked_about hlocal h⟩

/-- A byte is read at an address that is not known. The condition is on one constant, and the read is
at another one. -/
example :
    ∃ hook w', translateChecked .orig (.load (.var memory) (.unknown "u" (.word 32)) .little 8)
        checking = .ok (⟨_, Term.select (Spine.const "mem" (.mem 32 8))
          (.const "unknown_1" (.bv 32))⟩, [hook]) w' ∧
      hook.term = Term.nonZero (.const "unknown_0" (.bv 32)) :=
  ⟨_, _, rfl, rfl⟩

end Walk

end Precond
