import Precond.Proofs.Exact.Translation
import Precond.Proofs.Walk.Steady

/-! What a translation leaves as it is. However a translation ends, and whatever conditions are asked
for on the way, the variables stand for the terms that they stood for before
(`Walk.translateChecked_undisturbed`): each binding on the way is undone, also where a fault goes
through it. Without unknown parts the term depends on these terms only, so that it is the one that is
given where no conditions are asked for. -/

namespace Precond

open IR

/-- A rule that looks at one program only. -/
def SideRule.single : SideRule → Bool
  | offsetRead .. => false
  | nonNull .. | validAccess .. | nonZeroDivisor | custom .. => true

/-- What expressions are translated under: what variables stand for, and the policies. -/
abbrev Setting := Table Var SomeTerm × Env

def Env.setting (e : Env) : Setting := (e.vars, e.policy)

def Setting.put (E : Setting) (v : Var) (t : SomeTerm) : Setting := (E.1.put v t, E.2)

namespace Walk

variable {side s : Side} {E : Setting} {w w' v : World} {e : Exp}

theorem put_setting (h : (w.env side).setting = E) (u : Var) (t : SomeTerm) :
    ((put w side u t).env side).setting = E.put u t := by
  rw [put, World.env_setEnv, ← h]
  rfl

theorem counted_setting (w : World) (n : Nat) :
    (World.env { w with translations := n } s).setting = (w.env s).setting := by cases s <;> rfl

/-! ### Bindings -/

/-- However the action ends, variables stand for the terms that they stood for before, and policies
are those before. -/
def Leaves (s : Side) (x : Walk α) : Prop :=
  ∀ w, ((ending x w).env s).setting = (w.env s).setting

namespace Leaves

variable {x : Walk α} {k : α → Walk β}

theorem of_ok (h : Leaves s x) {a : α} (ha : x w = .ok a w') :
    (w'.env s).setting = (w.env s).setting := ending_of_ok ha ▸ h w

theorem pure (a : α) : Leaves s (Pure.pure a) := fun _ => rfl

theorem throw (f : Fault) : Leaves s (MonadExcept.throw f : Walk α) := fun _ => rfl

theorem env : Leaves s (Walk.env side) := fun _ => rfl

theorem ofExcept (x : Except Fault α) : Leaves s (Walk.ofExcept x) := by
  cases x with
  | ok a => exact pure a
  | error f => exact throw f

theorem lift (x : Except Fault α) : Leaves s (liftM x : Walk α) := ofExcept x

/-- The second action is looked at where the first one has ended. -/
theorem bind_seen (hx : Leaves s x)
    (hk : ∀ a w w', x w = .ok a w' → ((ending (k a) w').env s).setting = (w'.env s).setting) :
    Leaves s (x >>= k) := by
  intro w
  rw [ending_bind]
  cases ha : x w with
  | ok a w' => exact (hk a w w' ha).trans (hx.of_ok ha)
  | error f w' => exact ending_of_error ha ▸ hx w

theorem bind (hx : Leaves s x) (hk : ∀ a, Leaves s (k a)) : Leaves s (x >>= k) :=
  hx.bind_seen fun a _ w' _ => hk a w'

theorem ite {c : Prop} [Decidable c] {x y : Walk α} (hx : Leaves s x) (hy : Leaves s y) :
    Leaves s (if c then x else y) := by
  split
  · exact hx
  · exact hy

theorem ending_on (act : EnvM α) (w : World) :
    ending (Walk.on side act) w = w.setEnv side (ending act (w.env side)) := by
  rw [ending, ending, Walk.on]
  cases act (w.env side) <;> rfl

theorem on {act : EnvM α} (h : ∀ e, (ending act e).setting = e.setting) :
    Leaves s (Walk.on side act) := by
  intro w
  rw [ending_on]
  by_cases hs : s = side
  · subst hs
    rw [World.env_setEnv, h]
  · rw [World.env_setEnv_of_ne _ _ _ hs]

theorem on_other {act : EnvM α} (hs : s ≠ side) : Leaves s (Walk.on side act) := by
  intro w
  rw [ending_on, World.env_setEnv_of_ne _ _ _ hs]

theorem getVar (u : Var) : Leaves s (Walk.on side (Env.getVar u)) := by
  refine on fun e => ?_
  rw [ending, Env.getVar, EnvM.get_bind]
  cases e.vars.lookup u <;> rfl

theorem fresh (name : String) (type : Ty) : Leaves s (Walk.on side (Env.fresh name type)) := by
  refine on fun e => ?_
  unfold ending Env.fresh Env.const
  cases type.sort <;> rfl

/-- A variable that has stood for a term stands again for what it stood for before, or for nothing. -/
theorem binding (hx : Leaves s x) (u : Var) (t : SomeTerm) : Leaves s (Walk.binding side u t x) := by
  intro w
  rw [ending, binding_eq, ← ending, ending_restoring]
  have hw := hx (put w side u t)
  by_cases hs : s = side
  · subst hs
    rw [put_setting rfl] at hw
    rw [World.env_setEnv]
    have hvars : ((ending x (put w s u t)).env s).vars = (w.env s).vars.put u t := congrArg Prod.fst hw
    have hpolicy : ((ending x (put w s u t)).env s).policy = (w.env s).policy := congrArg Prod.snd hw
    cases hu : (w.env s).vars.lookup u with
    | some t' =>
      show (Table.put ((ending x (put w s u t)).env s).vars u t', _) = _
      rw [hvars, Table.put_lookup hu]
      exact Prod.ext rfl hpolicy
    | none =>
      show (Table.without ((ending x (put w s u t)).env s).vars u, _) = _
      rw [hvars, Table.without_put hu]
      exact Prod.ext rfl hpolicy
  · rw [put, World.env_setEnv_of_ne _ _ _ hs] at hw
    rw [World.env_setEnv_of_ne _ _ _ hs, put, hw]

/-- The induction is on the expression; all that is done at a part is undone there. -/
theorem translateWith {watch : Exp → Walk (List Hook)} (hw : ∀ e, Leaves s (watch e)) (e : Exp) :
    Leaves s (Walk.translateWith side watch e) := by
  induction e with
  | var u => exact (hw _).bind fun _ => (getVar u).bind fun _ => pure _
  | lit x => exact (hw _).bind fun _ => ite (throw _) (pure _)
  | bin op l r ihl ihr =>
    exact (hw _).bind fun _ => ihl.bind fun _ => ihr.bind fun _ => (lift _).bind fun _ => pure _
  | un op a ih | cast kind width a ih | extract hi lo a ih =>
    exact (hw _).bind fun _ => ih.bind fun _ => (lift _).bind fun _ => pure _
  | load mem addr endian size ihm iha =>
    exact (hw _).bind fun _ => ihm.bind fun _ => iha.bind fun _ => (lift _).bind fun _ => pure _
  | store mem addr value endian size iha ihb ihc | ite cond yes no iha ihb ihc =>
    exact (hw _).bind fun _ => iha.bind fun _ => ihb.bind fun _ => ihc.bind fun _ =>
      (lift _).bind fun _ => pure _
  | concat l r ihl ihr =>
    exact (hw _).bind fun _ => ihl.bind fun _ => (ofExcept _).bind fun _ => ihr.bind fun _ =>
      (lift _).bind fun _ => pure _
  | letIn u value body ihv ihb =>
    exact (hw _).bind fun _ => ihv.bind fun p => (ihb.binding u p.1).bind fun _ => pure _
  | unknown text type => exact (hw _).bind fun _ => (fresh _ _).bind fun _ => pure _

theorem translate (e : Exp) : Leaves s (Walk.translate side e) :=
  (translateWith (fun _ => pure _) e).bind fun _ => pure _

theorem condition (e : Exp) : Leaves s (Walk.condition side e) :=
  (translate e).bind fun _ => lift _

/-- A variable that is bound is only looked up. -/
theorem mkVar_of_lookup {u : Var} {t : SomeTerm} (hu : (w.env side).vars.lookup u = some t) :
    Walk.on side (Env.mkVar u) w = .ok t w := by
  have hmk : Env.mkVar u (w.env side) = .ok t (w.env side) := by
    rw [Env.mkVar, EnvM.get_bind, hu]
    rfl
  rw [Walk.on, hmk]
  cases side <;> rfl

/-- The read of the second program asks for the memory there. Where that is the program itself, the
memory has been found bound just before. -/
theorem mkVar_after (mem : Var) {k : SomeTerm → SomeTerm → Walk α} (op : SomeTerm → Except Fault SomeTerm)
    (hk : ∀ t m, Leaves side (k t m)) :
    Leaves side (do
      let orig ← liftM (op (← Walk.translate side (.var mem)))
      let m ← Walk.on .mod (Env.mkVar mem)
      k orig m) := by
  refine (translate _).bind_seen fun t w w' ht => ?_
  obtain ⟨hmem, rfl⟩ := translate_var ht
  cases hop : op t with
  | error f => rfl
  | ok orig =>
    show ((ending (Walk.on .mod (Env.mkVar mem) >>= k orig) w').env side).setting = _
    cases side with
    | orig =>
      have hother : Leaves .orig (Walk.on .mod (Env.mkVar mem)) := on_other nofun
      exact (hother.bind fun m => hk orig m) w'
    | mod =>
      rw [ending_bind, mkVar_of_lookup hmem]
      exact hk orig t w'

theorem sideCondition {rule : SideRule} (hrule : s = side ∨ rule.single) (e : Exp) :
    Leaves s (Walk.sideCondition side e rule) := by
  unfold Walk.sideCondition
  split
  · split
    · exact pure _
    · exact (translate _).bind fun _ => (lift _).bind fun _ => pure _
  · split
    · exact pure _
    · exact (translate _).bind fun _ => (lift _).bind fun _ => env.bind fun _ => pure _
  · split
    · exact ite ((translate _).bind fun _ => (lift _).bind fun _ => pure _) (pure _)
    · exact pure _
  · obtain rfl := hrule.resolve_right Bool.false_ne_true
    split
    · refine (translate _).bind fun a => mkVar_after _ (Term.load · a _ _) fun _ _ => ?_
      exact ite (throw _) ((lift _).bind fun _ => (lift _).bind fun _ => (lift _).bind fun _ => pure _)
    · exact pure _
  · exact ite ((condition _).bind fun _ => pure _) (pure _)

theorem sideConditions {rules : List SideRule} (hrules : s = side ∨ ∀ r ∈ rules, r.single) (e : Exp) :
    Leaves s (Walk.sideConditions side rules e) := by
  induction rules with
  | nil => exact pure _
  | cons r rules ih =>
    exact (sideCondition (hrules.imp_right (· r List.mem_cons_self)) e).bind fun _ =>
      (ih (hrules.imp_right fun h r' hr' => h r' (List.mem_cons_of_mem _ hr'))).bind fun _ => pure _

end Leaves

/-! ### Results -/

/-- What the action gives in a setting. -/
def Results (side : Side) (E : Setting) (P : α → Prop) (x : Walk α) : Prop :=
  ∀ w a w', (w.env side).setting = E → x w = .ok a w' → P a

namespace Results

variable {x : Walk α} {k : α → Walk β} {P : α → Prop} {Q : β → Prop}

theorem pure {a : α} (h : P a) : Results side E P (Pure.pure a) := by
  intro w b w' _ hb
  cases hb
  exact h

theorem bind (hleaves : Leaves side x) (hx : Results side E P x)
    (hk : ∀ a, P a → Results side E Q (k a)) : Results side E Q (x >>= k) := by
  intro w b w' hE hb
  obtain ⟨a, w₁, ha, h₁⟩ := bind_ok hb
  exact hk a (hx w a w₁ hE ha) w₁ b w' ((hleaves.of_ok ha).trans hE) h₁

/-- Nothing is known of the result of the first action. -/
theorem after (hleaves : Leaves side x) (hk : ∀ a, Results side E Q (k a)) :
    Results side E Q (x >>= k) :=
  .bind (P := fun _ => True) hleaves (fun _ _ _ _ _ => True.intro) fun a _ => hk a

theorem and {Q : α → Prop} (hP : Results side E P x) (hQ : Results side E Q x) :
    Results side E (fun a => P a ∧ Q a) x :=
  fun w a w' hE ha => ⟨hP w a w' hE ha, hQ w a w' hE ha⟩

/-- The setting is that of a world. -/
theorem inWorld (h : ∀ v : World, (v.env side).setting = E → Results side E P x) :
    Results side E P x :=
  fun w a w' hE ha => h w hE w a w' hE ha

theorem lift {o : Except Fault α} (hk : ∀ a, o = .ok a → Results side E Q (k a)) :
    Results side E Q ((liftM o : Walk α) >>= k) := by
  refine .bind (P := fun a => o = .ok a) (.lift o) (fun w a w' _ ha => ?_) hk
  exact (ofExcept_ok ha).1

theorem binding {u : Var} {t : SomeTerm} (h : Results side (E.put u t) P x) :
    Results side E P (Walk.binding side u t x) := by
  intro w a w' hE ha
  rw [binding_eq] at ha
  obtain ⟨w₁, h₁, -⟩ := restoring_ok ha
  exact h (put w side u t) a w₁ (put_setting hE u t) h₁

end Results

/-! ### The term without conditions -/

/-- What the first action gives in a setting, the second one gives there as well, without conditions
and without a change. -/
def Plainly (side : Side) (E : Setting) (x y : Walk (SomeTerm × List Hook)) : Prop :=
  Results side E (fun r => ∀ v, (v.env side).setting = E → y v = .ok (r.1, []) v) x

namespace Plainly

variable {x y : Walk (SomeTerm × List Hook)} {k k' : SomeTerm × List Hook → Walk (SomeTerm × List Hook)}

theorem pure (t : SomeTerm) (hs : List Hook) :
    Plainly side E (Pure.pure (t, hs)) (Pure.pure (t, [])) := Results.pure fun _ _ => rfl

theorem watched {watch : Walk (List Hook)} {k k' : List Hook → Walk (SomeTerm × List Hook)}
    (hw : Leaves side watch) (hk : ∀ hs, Plainly side E (k hs) (k' [])) :
    Plainly side E (watch >>= k) (silent e >>= k') := Results.after hw hk

theorem andThen (hx : Leaves side x) (h : Plainly side E x y)
    (hk : ∀ t hs, Plainly side E (k (t, hs)) (k' (t, []))) : Plainly side E (x >>= k) (y >>= k') := by
  refine Results.bind hx h fun r hr w r' w' hE h' v hv => ?_
  exact (bind_of_ok (hr v hv)).trans (hk r.1 r.2 w r' w' hE h' v hv)

/-- What depends on terms only succeeds in every world or in none. -/
theorem lift {o : Except Fault α} {k k' : α → Walk (SomeTerm × List Hook)}
    (hk : ∀ a, Plainly side E (k a) (k' a)) :
    Plainly side E ((liftM o : Walk α) >>= k) ((liftM o : Walk α) >>= k') := by
  refine Results.lift fun a ha => ?_
  rw [ha]
  exact hk a

theorem binding {u : Var} {t : SomeTerm} (h : Plainly side (E.put u t) x y) :
    Plainly side E (Walk.binding side u t x) (Walk.binding side u t y) := by
  intro w r w' hE hr v hv
  have hy : y (put v side u t) = .ok (r.1, []) (put v side u t) :=
    Results.binding h w r w' hE hr _ (put_setting hv u t)
  rw [binding_eq, Walk.restoring, hy]
  dsimp only
  rw [put, World.env_setEnv, restoreVar_put u t (v.env side) (v.env side).names, setEnv_setEnv_env]

theorem translateWith {watch : Exp → Walk (List Hook)} (hw : ∀ e, Leaves side (watch e))
    (he : e.known) :
    Plainly side E (Walk.translateWith side watch e) (Walk.translateWith side silent e) := by
  have hleaves (e : Exp) : Leaves side (Walk.translateWith side watch e) := .translateWith hw e
  induction e generalizing E with
    simp only [Exp.known, Bool.and_eq_true] at he
  | var u =>
    refine watched (hw _) fun hs w r w' hE h v hv => ?_
    have hvars : (w.env side).vars = (v.env side).vars := congrArg Prod.fst (hE.trans hv.symm)
    obtain ⟨t, w₁, ht, h₁⟩ := bind_ok h
    obtain ⟨hu, rfl⟩ := getVar_ok ht
    cases h₁
    rw [hvars] at hu
    have hget : on side (Env.getVar u) v = .ok t v := by
      rw [on, Env.getVar_of_lookup hu]
      cases side <;> rfl
    exact bind_of_ok hget
  | @lit width x =>
    refine watched (hw _) fun hs => ?_
    split
    · intro w r w' _ h
      cases h
    · exact pure _ _
  | bin op l r ihl ihr =>
    exact watched (hw _) fun _ => (ihl he.1).andThen (hleaves _) fun _ _ =>
      (ihr he.2).andThen (hleaves _) fun _ _ => lift fun _ => pure _ _
  | un op a ih | cast kind width a ih | extract hi lo a ih =>
    exact watched (hw _) fun _ => (ih he).andThen (hleaves _) fun _ _ => lift fun _ => pure _ _
  | load mem addr endian size ihm iha =>
    exact watched (hw _) fun _ => (ihm he.1).andThen (hleaves _) fun _ _ =>
      (iha he.2).andThen (hleaves _) fun _ _ => lift fun _ => pure _ _
  | store mem addr value endian size iha ihb ihc | ite cond yes no iha ihb ihc =>
    exact watched (hw _) fun _ => (iha he.1.1).andThen (hleaves _) fun _ _ =>
      (ihb he.1.2).andThen (hleaves _) fun _ _ =>
      (ihc he.2).andThen (hleaves _) fun _ _ => lift fun _ => pure _ _
  | concat l r ihl ihr =>
    exact watched (hw _) fun _ => (ihl he.1).andThen (hleaves _) fun _ _ => lift fun _ =>
      (ihr he.2).andThen (hleaves _) fun _ _ => lift fun _ => pure _ _
  | letIn u value body ihv ihb =>
    exact watched (hw _) fun _ => (ihv he.1).andThen (hleaves _) fun t _ =>
      (binding (ihb he.2)).andThen ((hleaves _).binding u t) fun _ _ => pure _ _
  | unknown text type => cases he

end Plainly

/-- Without unknown parts the term is the same in all worlds with the same setting. -/
theorem translate_plainly {watch : Exp → Walk (List Hook)} (hw : ∀ e, Leaves side (watch e))
    (he : e.known) {r : SomeTerm × List Hook} (h : translateWith side watch e w = .ok r w')
    (hv : (v.env side).setting = (w.env side).setting) : translate side e v = .ok r.1 v := by
  rw [translate, bind_of_ok (Plainly.translateWith hw he w r w' rfl h v hv)]
  rfl

/-! ### Checked translations -/

theorem leaves_translateChecked (hrules : s = side ∨ ∀ r ∈ (w.env side).sideRules, r.single) (e : Exp) :
    ((ending (translateChecked side e) w).env s).setting = (w.env s).setting := by
  let w₀ : World := { w with translations := w.translations + 1 }
  have henv : w₀.env side = w.env side := by cases side <;> rfl
  have hleaves : Leaves s (translateWith side (sideConditions side (w₀.env side).sideRules) e) :=
    .translateWith (fun e => .sideConditions (henv ▸ hrules) e) e
  exact (hleaves w₀).trans (counted_setting w _)

/-- However a checked translation ends, the variables stand for the terms that they stood for before,
and so do those of the other program if each rule looks at one program only. The term of an expression
without unknown parts is the one that is given without conditions, which changes nothing. -/
theorem translateChecked_undisturbed (side : Side) (e : Exp) (w : World) :
    (∀ s, s = side ∨ (∀ r ∈ (w.env side).sideRules, r.single) →
      ((ending (translateChecked side e) w).env s).vars = (w.env s).vars) ∧
    (e.known → ∀ t hs w', translateChecked side e w = .ok (t, hs) w' →
      translate side e w = .ok t w) := by
  refine ⟨fun s hrules => congrArg Prod.fst (leaves_translateChecked hrules e), fun he t hs w' h => ?_⟩
  exact translate_plainly (r := (t, hs)) (Leaves.sideConditions (.inl rfl)) he h
    (counted_setting w _).symm

/-! A register is bound twice, to its sum and inside to what is read there, and what is read is
divided by the sum. -/

def shadowing : Exp :=
  .letIn register1 (.bin .add (.var register1) (.lit 4#32))
    (.bin .udiv
      (.letIn register1 (.load (.var memory) (.var register1) .little 32) (.var register1))
      (.var register1))

theorem translateChecked_undisturbed_shadowing :
    (∀ r ∈ (checking.env .orig).sideRules, r.single) ∧ shadowing.known ∧
      (∃ t hs w', hs ≠ [] ∧ translateChecked .orig shadowing checking = .ok (t, hs) w' ∧
        translate .orig shadowing checking = .ok t checking) ∧
      ∀ s, ((ending (translateChecked .orig shadowing) checking).env s).vars =
        (checking.env s).vars := by
  obtain ⟨hvars, hterm⟩ := translateChecked_undisturbed .orig shadowing checking
  have hrules : ∀ r ∈ (checking.env .orig).sideRules, r.single := by decide
  obtain ⟨t, hs, w', hne, h⟩ : ∃ t hs w', hs ≠ [] ∧
      translateChecked .orig shadowing checking = .ok (t, hs) w' :=
    ⟨_, _, _, List.cons_ne_nil _ _, rfl⟩
  exact ⟨hrules, rfl, ⟨t, hs, w', hne, h, hterm rfl t hs w' h⟩, fun s => hvars s (.inr hrules)⟩

end Walk

end Precond
