import Precond.Proofs.IR.Lets
import Precond.Proofs.Walk.Operands

/-! Translation without bindings. A binding is translated by letting its variable stand for the term of
its value, and so an expression has the same term after each variable is replaced by what it stands
for. Eliminating bindings puts values in place one after the other and does not look at the names that
they come under: where no variable of a value is bound there, the term is the same
(`Walk.translate_inlineLets`), and else it may be another one. -/

namespace Precond

open IR

namespace Walk

variable {side : Side} {E F : Setting} {w w' v : World} {e : Exp} {t : SomeTerm} {hs : List Hook}

/-- What the first action gives in the one setting, the second one gives in the other, with whatever
conditions. -/
def Matches (side : Side) (E F : Setting) (x y : Walk (SomeTerm × List Hook)) : Prop :=
  Results side E (fun r => ∀ v, (v.env side).setting = F → ∃ hs v', y v = .ok (r.1, hs) v') x

namespace Matches

variable {x y : Walk (SomeTerm × List Hook)} {k k' : SomeTerm × List Hook → Walk (SomeTerm × List Hook)}

theorem pure (t : SomeTerm) (hs hs' : List Hook) :
    Matches side E F (Pure.pure (t, hs)) (Pure.pure (t, hs')) :=
  Results.pure fun v _ => ⟨hs', v, rfl⟩

theorem watched {watch watch' : Walk (List Hook)} {k k' : List Hook → Walk (SomeTerm × List Hook)}
    (hw : Leaves side watch) (hw' : Leaves side watch')
    (hsucceeds : ∀ v, (v.env side).setting = F → ∃ hs v', watch' v = .ok hs v')
    (hk : ∀ hs hs', Matches side E F (k hs) (k' hs')) :
    Matches side E F (watch >>= k) (watch' >>= k') := by
  refine Results.after hw fun hs w r w' hE h v hv => ?_
  obtain ⟨hs', v₁, h₁⟩ := hsucceeds v hv
  rw [bind_of_ok h₁]
  exact hk hs hs' w r w' hE h v₁ ((hw'.of_ok h₁).trans hv)

theorem andThen (hx : Leaves side x) (hy : Leaves side y) (h : Matches side E F x y)
    (hk : ∀ t hs hs', Matches side E F (k (t, hs)) (k' (t, hs'))) :
    Matches side E F (x >>= k) (y >>= k') := by
  refine Results.bind hx h fun r hr w r' w' hE h' v hv => ?_
  obtain ⟨hs', v₁, h₁⟩ := hr v hv
  rw [bind_of_ok h₁]
  exact hk r.1 r.2 hs' w r' w' hE h' v₁ ((hy.of_ok h₁).trans hv)

theorem lift {o : Except Fault α} {k k' : α → Walk (SomeTerm × List Hook)}
    (hk : ∀ a, Matches side E F (k a) (k' a)) :
    Matches side E F ((liftM o : Walk α) >>= k) ((liftM o : Walk α) >>= k') := by
  refine Results.lift fun a ha => ?_
  rw [ha]
  exact hk a

theorem binding {u : Var} {t : SomeTerm} (h : Matches side (E.put u t) (F.put u t) x y) :
    Matches side E F (Walk.binding side u t x) (Walk.binding side u t y) := by
  intro w r w' hE hr v hv
  obtain ⟨hs, v', hy⟩ := Results.binding h w r w' hE hr _ (put_setting hv u t)
  rw [binding_eq, Walk.restoring, hy]
  exact ⟨hs, _, rfl⟩

end Matches

theorem getVar_of_lookup {u : Var} (hu : (w.env side).vars.lookup u = some t) :
    on side (Env.getVar u) w = .ok t w := by
  rw [on, Env.getVar_of_lookup hu]
  cases side <;> rfl

/-! ### Bindings as a scope -/

/-- What variables stand for as expressions is translated in the setting `F` to what they stand for as
terms in the setting `E`. -/
def Stocked (side : Side) (E F : Setting) (Γ : Var → Exp) : Prop :=
  ∀ u t, E.1.lookup u = some t →
    ∀ v, (v.env side).setting = F → ∃ hs v', translateWith side silent (Γ u) v = .ok (t, hs) v'

theorem Stocked.var (F : Setting) : Stocked side F F .var := by
  rintro u t hu v rfl
  exact ⟨[], v, bind_of_ok (getVar_of_lookup hu)⟩

theorem Stocked.put {Γ : Var → Exp} {x : Exp} (h : Stocked side E F Γ)
    (hx : ∀ v, (v.env side).setting = F → ∃ hs v', translateWith side silent x v = .ok (t, hs) v')
    (u : Var) : Stocked side (E.put u t) F (Function.update Γ u x) := by
  intro z s hz v hv
  by_cases hzu : z = u
  · subst hzu
    rw [Setting.put, Table.lookup_put_self] at hz
    cases hz
    rw [Function.update_self]
    exact hx v hv
  · rw [Setting.put, Table.lookup_put_of_ne _ _ hzu] at hz
    rw [Function.update_of_ne hzu]
    exact h z s hz v hv

/-- The induction is on the expression, with the scope at each part. -/
theorem translateWith_expand {watch : Exp → Walk (List Hook)} (hw : ∀ e, Leaves side (watch e))
    {Γ : Var → Exp} (hΓ : Stocked side E F Γ) (he : e.known) :
    Matches side E F (translateWith side watch e) (translateWith side silent (e.expand Γ)) := by
  have hleaves (e : Exp) : Leaves side (translateWith side watch e) := .translateWith hw e
  have hsilent (e : Exp) : Leaves side (translateWith side silent e) := .translateWith (fun _ => .pure _) e
  have hquiet (e : Exp) : ∀ v, (v.env side).setting = F → ∃ hs v', silent e v = .ok hs v' :=
    fun v _ => ⟨[], v, rfl⟩
  induction e generalizing E Γ with
    simp only [Exp.known, Bool.and_eq_true] at he
  | var u =>
    refine .after (hw _) fun hs w r w' hE h v hv => ?_
    obtain ⟨t, w₁, ht, h₁⟩ := bind_ok h
    obtain ⟨hu, rfl⟩ := getVar_ok ht
    cases h₁
    exact hΓ u t (congrArg Prod.fst hE ▸ hu) v hv
  | @lit width x =>
    refine .watched (hw _) (.pure _) (hquiet _) fun hs hs' => ?_
    split
    · intro w r w' _ h
      cases h
    · exact .pure _ _ _
  | bin op l r ihl ihr =>
    exact .watched (hw _) (.pure _) (hquiet _) fun _ _ =>
      (ihl hΓ he.1).andThen (hleaves _) (hsilent _) fun _ _ _ =>
      (ihr hΓ he.2).andThen (hleaves _) (hsilent _) fun _ _ _ => .lift fun _ => .pure _ _ _
  | un op a ih | cast kind width a ih | extract hi lo a ih =>
    exact .watched (hw _) (.pure _) (hquiet _) fun _ _ =>
      (ih hΓ he).andThen (hleaves _) (hsilent _) fun _ _ _ => .lift fun _ => .pure _ _ _
  | load mem addr endian size ihm iha =>
    exact .watched (hw _) (.pure _) (hquiet _) fun _ _ =>
      (ihm hΓ he.1).andThen (hleaves _) (hsilent _) fun _ _ _ =>
      (iha hΓ he.2).andThen (hleaves _) (hsilent _) fun _ _ _ => .lift fun _ => .pure _ _ _
  | store mem addr value endian size iha ihb ihc | ite cond yes no iha ihb ihc =>
    exact .watched (hw _) (.pure _) (hquiet _) fun _ _ =>
      (iha hΓ he.1.1).andThen (hleaves _) (hsilent _) fun _ _ _ =>
      (ihb hΓ he.1.2).andThen (hleaves _) (hsilent _) fun _ _ _ =>
      (ihc hΓ he.2).andThen (hleaves _) (hsilent _) fun _ _ _ => .lift fun _ => .pure _ _ _
  | concat l r ihl ihr =>
    exact .watched (hw _) (.pure _) (hquiet _) fun _ _ =>
      (ihl hΓ he.1).andThen (hleaves _) (hsilent _) fun _ _ _ => .lift fun _ =>
      (ihr hΓ he.2).andThen (hleaves _) (hsilent _) fun _ _ _ => .lift fun _ => .pure _ _ _
  | letIn u value body ihv ihb =>
    -- the value is translated where its variable is read, in the scope that is outside of the binding
    refine .after (hw _) fun hs => .bind (hleaves _) (ihv hΓ he.1) fun p hp => ?_
    refine .bind ((hleaves _).binding u p.1) (.binding (ihb (hΓ.put hp u) he.2)) fun q hq => ?_
    exact .pure hq
  | unknown text type => cases he

/-! ### Conditions on operands -/

/-- The address of an access and the divisor of a division are words where the expression is
translated. -/
theorem operand_word {x : Exp} (he : e.known) (hE : (w.env side).setting = E)
    (h : translateWith side silent e w = .ok (t, hs) w') (hx : e.operand? = some x) :
    ∃ k, ∃ b : Term (.bv k), ∀ v, (v.env side).setting = E → translate side x v = .ok ⟨_, b⟩ v := by
  have hsilent : ∀ e, Leaves side (silent e) := fun _ => .pure _
  have hpart {x : Exp} {a : SomeTerm} {ha : List Hook} {w₁ w₂ : World} (hx : x.known)
      (hw : (w₁.env side).setting = E) (h : translateWith side silent x w₁ = .ok (a, ha) w₂) :
      (w₂.env side).setting = E ∧
        ∀ v, (v.env side).setting = E → translate side x v = .ok a v :=
    ⟨(Leaves.of_ok (.translateWith hsilent x) h).trans hw,
      fun v hv => translate_plainly hsilent hx h (hv.trans hw.symm)⟩
  cases e with
  | load mem addr endian size =>
    cases hx
    simp only [Exp.known, Bool.and_eq_true] at he
    obtain ⟨_, _, h₀, h⟩ := bind_ok h
    cases h₀
    obtain ⟨⟨m, hm⟩, w₁, h₁, h⟩ := bind_ok h
    obtain ⟨⟨a, ha⟩, w₂, h₂, h⟩ := bind_ok h
    obtain ⟨z, w₃, h₃, -⟩ := bind_ok h
    obtain ⟨hE₁, -⟩ := hpart he.1 hE h₁
    obtain ⟨-, haddr⟩ := hpart he.2 hE₁ h₂
    obtain ⟨_, -, hload⟩ := bind_eq_ok (ofExcept_ok h₃).1
    obtain ⟨_, -, hload⟩ := bind_eq_ok hload
    obtain ⟨y, hword, -⟩ := bind_eq_ok hload
    exact ⟨y.1, y.2, fun v hv => SomeTerm.word_eq_ok hword ▸ haddr v hv⟩
  | store mem addr value endian size =>
    cases hx
    simp only [Exp.known, Bool.and_eq_true] at he
    obtain ⟨_, _, h₀, h⟩ := bind_ok h
    cases h₀
    obtain ⟨⟨m, hm⟩, w₁, h₁, h⟩ := bind_ok h
    obtain ⟨⟨a, ha⟩, w₂, h₂, h⟩ := bind_ok h
    obtain ⟨_, w₃, h₃, h⟩ := bind_ok h
    obtain ⟨z, w₄, h₄, -⟩ := bind_ok h
    obtain ⟨hE₁, -⟩ := hpart he.1.1 hE h₁
    obtain ⟨-, haddr⟩ := hpart he.1.2 hE₁ h₂
    obtain ⟨_, -, hstore⟩ := bind_eq_ok (ofExcept_ok h₄).1
    obtain ⟨_, -, hstore⟩ := bind_eq_ok hstore
    obtain ⟨y, hword, -⟩ := bind_eq_ok hstore
    exact ⟨y.1, y.2, fun v hv => SomeTerm.word_eq_ok hword ▸ haddr v hv⟩
  | bin op l r =>
    simp only [Exp.operand?] at hx
    split at hx
    · cases hx
      simp only [Exp.known, Bool.and_eq_true] at he
      obtain ⟨_, _, h₀, h⟩ := bind_ok h
      cases h₀
      obtain ⟨⟨x, hx⟩, w₁, h₁, h⟩ := bind_ok h
      obtain ⟨⟨a, ha⟩, w₂, h₂, h⟩ := bind_ok h
      obtain ⟨z, w₃, h₃, -⟩ := bind_ok h
      obtain ⟨hE₁, -⟩ := hpart he.1 hE h₁
      obtain ⟨-, hdivisor⟩ := hpart he.2 hE₁ h₂
      obtain ⟨_, -, hbin⟩ := bind_eq_ok (ofExcept_ok h₃).1
      obtain ⟨y, hword, -⟩ := bind_eq_ok hbin
      exact ⟨y.1, y.2, fun v hv => SomeTerm.word_eq_ok hword ▸ hdivisor v hv⟩
    · cases hx
  | _ => cases hx

/-- The action gives a result and changes nothing. -/
def Answers (x : Walk α) (v : World) : Prop := ∃ a, x v = .ok a v

theorem Answers.pure (a : α) : Answers (Pure.pure a : Walk α) v := ⟨a, rfl⟩

theorem Answers.bind {x : Walk α} {k : α → Walk β} {a : α} (hx : x v = .ok a v)
    (hk : Answers (k a) v) : Answers (x >>= k) v := by
  obtain ⟨b, hb⟩ := hk
  exact ⟨b, (bind_of_ok hx).trans hb⟩

/-- Rules that ask for nothing but operands succeed where operands are words. -/
theorem sideConditions_answers {rules : List SideRule} (hlocal : ∀ r ∈ rules, r.isLocal)
    (hword : ∀ x, e.operand? = some x →
      ∃ k, ∃ b : Term (.bv k), ∀ v, (v.env side).setting = E → translate side x v = .ok ⟨_, b⟩ v)
    (hv : (v.env side).setting = E) : Answers (sideConditions side rules e) v := by
  induction rules with
  | nil => exact .pure []
  | cons rule rules ih =>
    rw [List.forall_mem_cons] at hlocal
    obtain ⟨hs, hrest⟩ := ih hlocal.2
    suffices hrule : Answers (sideCondition side e rule) v by
      obtain ⟨o, ho⟩ := hrule
      exact .bind ho (.bind hrest (.pure _))
    have hsized {x : Exp} (hx : e.operand? = some x) {f : (k : Nat) × Term (.bv k) → Walk (Option Hook)}
        (hf : ∀ a, Answers (f a) v) :
        Answers (translate side x >>= fun t => (liftM t.sized : Walk _) >>= f) v := by
      obtain ⟨k, b, hb⟩ := hword x hx
      exact .bind (hb v hv) (hf ⟨k, b⟩)
    cases rule with
    | nonNull access duty =>
      simp only [sideCondition]
      split
      · exact .pure none
      · rename_i haccess
        exact hsized (accessed_operand haccess) fun _ => .pure _
    | validAccess access duty =>
      simp only [sideCondition]
      split
      · exact .pure none
      · rename_i haccess
        exact hsized (accessed_operand haccess) fun _ => .bind rfl (.pure _)
    | nonZeroDivisor =>
      unfold sideCondition
      dsimp only
      split
      · rw [divisions_contains]
        split
        · rename_i hop
          exact hsized (if_pos hop) fun _ => .pure _
        · exact .pure none
      · exact .pure none
    | offsetRead | custom => cases hlocal.1

/-- An expression that is translated is also translated with conditions on operands. -/
theorem translateWith_conditions {rules : List SideRule} (hlocal : ∀ r ∈ rules, r.isLocal)
    (he : e.known) :
    Matches side E E (translateWith side silent e)
      (translateWith side (sideConditions side rules) e) := by
  have hsilent (e : Exp) : Leaves side (silent e) := .pure _
  have hrules (e : Exp) : Leaves side (sideConditions side rules e) := .sideConditions (.inl rfl) e
  have hleaves (e : Exp) : Leaves side (translateWith side silent e) := .translateWith hsilent e
  have hleaves' (e : Exp) : Leaves side (translateWith side (sideConditions side rules) e) :=
    .translateWith hrules e
  -- that the rules succeed at an expression is seen from the translation of all of it
  have hwatched {E : Setting} {e : Exp} {k k' : List Hook → Walk (SomeTerm × List Hook)} (he : e.known)
      (hx : translateWith side silent e = silent e >>= k)
      (hk : ∀ hs hs', Matches side E E (k hs) (k' hs')) :
      Matches side E E (translateWith side silent e) (sideConditions side rules e >>= k') := by
    intro w r w' hE h
    refine (hx ▸ Matches.watched (.pure _) (hrules e) (fun v hv => ?_) hk) w r w' hE h
    obtain ⟨hs, hv'⟩ := sideConditions_answers hlocal (fun x => operand_word he hE h) hv
    exact ⟨hs, v, hv'⟩
  induction e generalizing E with
    (have he' := he; simp only [Exp.known, Bool.and_eq_true] at he')
  | var u =>
    refine hwatched he rfl fun hs hs' w r w' hE h v hv => ?_
    obtain ⟨t, w₁, ht, h₁⟩ := bind_ok h
    obtain ⟨hu, -⟩ := getVar_ok ht
    cases h₁
    have hvars : (w.env side).vars = (v.env side).vars := congrArg Prod.fst (hE.trans hv.symm)
    exact ⟨hs', v, bind_of_ok (getVar_of_lookup (hvars ▸ hu))⟩
  | @lit width x =>
    refine hwatched he rfl fun _ _ => ?_
    split
    · intro w r w' _ h
      cases h
    · exact .pure _ _ _
  | bin op l r ihl ihr =>
    exact hwatched he rfl fun _ _ =>
      (ihl he'.1).andThen (hleaves _) (hleaves' _) fun _ _ _ =>
      (ihr he'.2).andThen (hleaves _) (hleaves' _) fun _ _ _ => .lift fun _ => .pure _ _ _
  | un op a ih | cast kind width a ih | extract hi lo a ih =>
    exact hwatched he rfl fun _ _ =>
      (ih he').andThen (hleaves _) (hleaves' _) fun _ _ _ => .lift fun _ => .pure _ _ _
  | load mem addr endian size ihm iha =>
    exact hwatched he rfl fun _ _ =>
      (ihm he'.1).andThen (hleaves _) (hleaves' _) fun _ _ _ =>
      (iha he'.2).andThen (hleaves _) (hleaves' _) fun _ _ _ => .lift fun _ => .pure _ _ _
  | store mem addr value endian size iha ihb ihc | ite cond yes no iha ihb ihc =>
    exact hwatched he rfl fun _ _ =>
      (iha he'.1.1).andThen (hleaves _) (hleaves' _) fun _ _ _ =>
      (ihb he'.1.2).andThen (hleaves _) (hleaves' _) fun _ _ _ =>
      (ihc he'.2).andThen (hleaves _) (hleaves' _) fun _ _ _ => .lift fun _ => .pure _ _ _
  | concat l r ihl ihr =>
    exact hwatched he rfl fun _ _ =>
      (ihl he'.1).andThen (hleaves _) (hleaves' _) fun _ _ _ => .lift fun _ =>
      (ihr he'.2).andThen (hleaves _) (hleaves' _) fun _ _ _ => .lift fun _ => .pure _ _ _
  | letIn u value body ihv ihb =>
    exact hwatched he rfl fun _ _ =>
      (ihv he'.1).andThen (hleaves _) (hleaves' _) fun t _ _ =>
      (Matches.binding (ihb he'.2)).andThen ((hleaves _).binding u t) ((hleaves' _).binding u t)
        fun _ _ _ => .pure _ _ _
  | unknown text type => cases he'

/-! ### Expressions without bindings -/

/-- Nothing is unknown in what a known expression expands to. -/
theorem known_expand {Γ : Var → Exp} (hΓ : ∀ u, (Γ u).known) (he : e.known) : (e.expand Γ).known := by
  induction e generalizing Γ with
  | var u => exact hΓ u
  | letIn v x b ihx ihb =>
    simp only [Exp.known, Bool.and_eq_true] at he
    refine ihb (fun u => ?_) he.2
    by_cases hu : u = v
    · rw [hu, Function.update_self]
      exact ihx hΓ he.1
    · rw [Function.update_of_ne hu]
      exact hΓ u
  | _ => simp_all [Exp.known, Exp.expand]

/-- An expression without unknown parts keeps its term when each variable that is bound in it is
replaced by what it stands for, and so it does when its bindings are eliminated one after the other,
provided that no variable of a value is bound where the value is put. Then it is translated also where
conditions on operands are asked for. -/
theorem translate_inlineLets (he : e.known)
    (h : (∃ w', translate side e w = .ok t w') ∨ ∃ hs w', translateChecked side e w = .ok (t, hs) w') :
    translate side (e.expand .var) w = .ok t w ∧
    (e.Uncaptured .var → translate side e.inlineLets w = .ok t w ∧
      ((∀ r ∈ (w.env side).sideRules, r.isLocal) →
        ∃ hs w', translateChecked side e.inlineLets w = .ok (t, hs) w')) := by
  have hsilent (e : Exp) : Leaves side (silent e) := .pure _
  have hplain : translate side e w = .ok t w := by
    rcases h with ⟨w', h⟩ | ⟨hs, w', h⟩
    · obtain ⟨⟨t', hs⟩, w₁, h₁, h₂⟩ := bind_ok h
      cases h₂
      exact translate_plainly hsilent he h₁ rfl
    · exact (translateChecked_undisturbed side e w).2 he t hs w' h
  obtain ⟨r, w₁, h₁, h₂⟩ := bind_ok hplain
  cases h₂
  have hknown : (e.expand .var).known := known_expand (fun _ => rfl) he
  obtain ⟨hs, w', hexpand⟩ :=
    translateWith_expand hsilent (Stocked.var (w.env side).setting) he w r w rfl h₁ w rfl
  have hterm : translate side (e.expand .var) w = .ok r.1 w :=
    translate_plainly (r := (r.1, hs)) hsilent hknown hexpand rfl
  refine ⟨hterm, fun hfree => ?_⟩
  rw [Exp.inlineLets_eq_expand hfree]
  refine ⟨hterm, fun hlocal => ?_⟩
  let w₀ : World := { w with translations := w.translations + 1 }
  have henv : w₀.env side = w.env side := by cases side <;> rfl
  obtain ⟨hs', w'', hchecked⟩ := translateWith_conditions hlocal hknown w _ w' rfl hexpand w₀
    (counted_setting w _)
  refine ⟨hs', w'', ?_⟩
  rw [← henv] at hchecked
  exact hchecked

/-! The register is bound twice in the expression that is divided by what it stands for. -/

theorem translate_inlineLets_shadowing :
    shadowing.known ∧ shadowing.Uncaptured .var ∧ ∃ t, translate .orig shadowing checking = .ok t checking ∧
      translate .orig shadowing.inlineLets checking = .ok t checking ∧
      ∃ hs w', translateChecked .orig shadowing.inlineLets checking = .ok (t, hs) w' := by
  have hfree : shadowing.Uncaptured .var := by decide
  obtain ⟨t, h⟩ : ∃ t, translate .orig shadowing checking = .ok t checking := ⟨_, rfl⟩
  obtain ⟨-, hinline⟩ := translate_inlineLets (e := shadowing) rfl (.inl ⟨_, h⟩)
  obtain ⟨hterm, hchecked⟩ := hinline hfree
  exact ⟨rfl, hfree, t, h, hterm, hchecked (by decide)⟩

/-! The value of the outer binding is put under a binding of the register that it reads. -/

def captured : Exp :=
  .letIn loaded (.var register1) (.letIn register1 (.lit 1#32) (.var loaded))

theorem captured_differs :
    ¬ captured.Uncaptured .var ∧ captured.inlineLets = .lit 1#32 ∧
      captured.expand .var = .var register1 ∧
      ∃ t t', translate .orig captured checking = .ok t checking ∧
        translate .orig captured.inlineLets checking = .ok t' checking ∧
        t = ⟨.bv 32, .const "R1" (.bv 32)⟩ ∧ t' = ⟨.bv 32, .op (.bvLit 1#32)⟩ :=
  ⟨by decide, rfl, rfl, _, _, rfl, rfl, rfl, rfl⟩

end Walk

end Precond
