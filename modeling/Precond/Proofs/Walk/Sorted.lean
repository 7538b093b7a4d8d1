import Precond.Proofs.Term.Success
import Precond.Proofs.Walk.Monad
import Precond.Proofs.Walk.Translate

/-! Translation of expressions whose parts fit. Where the variables of such an expression are bound,
its translation ends with a term of its sort that stands for its value, or with a fault of the
watcher (`Walk.translateWith_outcome`). -/

namespace Precond

open IR

/-- All variables that an expression reads stand for terms of their sorts. -/
def Bound (V : Table Var SomeTerm) (e : Exp) : Prop :=
  ∀ v ∈ e.freeVars, ∃ t, V.lookup v = some t ∧ v.type.sort = .ok t.1

theorem Bound.part {V : Table Var SomeTerm} {e e' : Exp} (h : Bound V e)
    (he : ∀ v ∈ e'.freeVars, v ∈ e.freeVars) : Bound V e' := fun v hv => h v (he v hv)

theorem Bound.body {V : Table Var SomeTerm} {v : Var} {value body : Exp} {s : TSort}
    (h : Bound V (.letIn v value body)) (hv : v.type.sort = .ok s) (x : Term s) :
    Bound (V.put v ⟨s, x⟩) body := by
  intro u hu
  by_cases huv : u = v
  · subst huv
    exact ⟨_, Table.lookup_put_self .., hv⟩
  · have hfree : u ∈ (Exp.letIn v value body).freeVars := by
      simp [Exp.freeVars, hu, huv]
    obtain ⟨t, ht, hs⟩ := h u hfree
    exact ⟨t, (Table.lookup_put_of_ne _ _ huv).trans ht, hs⟩

namespace Walk

variable {side : Side} {w : World} {V : Table Var SomeTerm} {F : Fault → Prop}

/-- An action that has a term, with hooks, for an expression: the term has the sort and stands for
the value, and the bindings are those before. -/
def Renders (side : Side) (V : Table Var SomeTerm) (e : Exp) (s : TSort)
    (r : SomeTerm × List Hook) (w : World) : Prop :=
  (w.env side).vars = V ∧ ∃ t : Term s, r.1 = ⟨s, t⟩ ∧ Stands V e ⟨s, t⟩

/-- The watcher leaves bindings as they are, and its faults at an expression that fits are known. -/
structure Attends (side : Side) (watch : Exp → Walk (List Hook)) (B : Exp → Fault → Prop) :
    Prop where
  outcome {e : Exp} {s : TSort} {w : World} : e.HasSort s → Bound (w.env side).vars e →
    Outcome (fun _ w' => (w'.env side).vars = (w.env side).vars) (B e) (watch e) w

/-- A fault at a part of an expression. -/
def Within (B : Exp → Fault → Prop) (e : Exp) (f : Fault) : Prop := ∃ e' ∈ e.walk, B e' f

theorem attends_silent : Attends side silent fun _ _ => False := ⟨fun _ _ => rfl⟩

theorem mem_walk_self (e : Exp) : e ∈ e.walk := by
  cases e <;> simp [Exp.walk]

namespace Outcome

theorem getVar {v : Var} {t : SomeTerm} {P : SomeTerm → World → Prop}
    (hv : (w.env side).vars.lookup v = some t) (h : P t w) :
    Outcome P F (Walk.on side (Env.getVar v)) w := by
  have hget := Env.getVar_of_lookup hv
  have hset : w.setEnv side (w.env side) = w := by cases side <;> rfl
  refine .on (fun a e ha => ?_) fun f e hf => ?_
  · rw [hget] at ha
    cases ha
    rw [hset]
    exact h
  · rw [hget] at hf
    cases hf

/-- Binding a variable is undone afterwards. -/
theorem binding {v : Var} {x : SomeTerm} {act : Walk α} {P : α → Prop}
    (hV : (w.env side).vars = V)
    (h : ∀ w', (w'.env side).vars = V.put v x →
      Outcome (fun a w'' => P a ∧ (w''.env side).vars = V.put v x) F act w') :
    Outcome (fun a w' => P a ∧ (w'.env side).vars = V) F (Walk.binding side v x act) w := by
  subst hV
  refine .bind (P := fun e w' => e = w.env side ∧ w' = w) (.env ⟨rfl, rfl⟩) fun e w₀ he => ?_
  obtain ⟨rfl, rfl⟩ := he
  have hadd : Outcome (fun _ w' => (w'.env side).vars = (w₀.env side).vars.put v x) F
      (Walk.on side (Env.addVar v x)) w₀ := by
    refine .on (fun a e ha => ?_) fun f e hf => ?_
    · cases ha
      rw [World.env_setEnv]
    · cases hf
  refine .bind hadd fun _ w₁ h₁ => ?_
  refine .restoring ((h w₁ h₁).mono (fun a w₂ h₂ => ⟨h₂.1, ?_⟩) fun _ hf => hf)
  rw [World.env_setEnv]
  cases hv : (w₀.env side).vars.lookup v with
  | some t =>
    show (w₂.env side).vars.put v t = _
    rw [h₂.2, Table.put_lookup hv]
  | none =>
    show (w₂.env side).vars.without v = _
    rw [h₂.2, Table.without_put hv]

end Outcome

variable {watch : Exp → Walk (List Hook)} {B : Exp → Fault → Prop}

theorem Attends.offered (hw : Attends side watch B) {e : Exp} {s : TSort} (he : e.HasSort s)
    (hb : Bound V e) (hV : (w.env side).vars = V) :
    Outcome (fun _ w' => (w'.env side).vars = V) (Within B e) (watch e) w := by
  subst hV
  exact (hw.outcome he hb).mono (fun _ _ h => h) fun f hf => ⟨e, mem_walk_self e, hf⟩

theorem Outcome.part {P : α → World → Prop} {act : Walk α} {e e' : Exp}
    (h : Outcome P (Within B e') act w) (he : ∀ x ∈ e'.walk, x ∈ e.walk) :
    Outcome P (Within B e) act w :=
  h.mono (fun _ _ h => h) fun _ ⟨x, hx, hf⟩ => ⟨x, he x hx, hf⟩

/-- A part is translated, and the rest is done with its term. -/
theorem Outcome.translated {e e' : Exp} {s : TSort} {k : SomeTerm × List Hook → Walk α}
    {Q : α → World → Prop}
    (h : Outcome (Renders side V e' s) (Within B e') (translateWith side watch e') w)
    (he : ∀ x ∈ e'.walk, x ∈ e.walk)
    (hk : ∀ (t : Term s) (hooks : List Hook) (w' : World), (w'.env side).vars = V →
      Stands V e' ⟨s, t⟩ → Outcome Q (Within B e) (k (⟨s, t⟩, hooks)) w') :
    Outcome Q (Within B e) (translateWith side watch e' >>= k) w := by
  refine .bind (h.part he) ?_
  rintro ⟨_, hooks⟩ w' ⟨hV, t, rfl, hs⟩
  exact hk t hooks w' hV hs

/-- The operation on the terms of the parts succeeds. -/
theorem renders_operation {op : Except Fault SomeTerm} {e : Exp} {s : TSort} {t : Term s}
    (ht : op = .ok ⟨s, t⟩) (hV : (w.env side).vars = V) (hs : Stands V e ⟨s, t⟩)
    (hooks : List Hook) :
    Outcome (Renders side V e s) F ((liftM op : Walk SomeTerm) >>= fun z => pure (z, hooks)) w := by
  subst ht
  exact ⟨hV, t, rfl, hs⟩

theorem translateWith_bin {op : BinOp} {l r : Exp} {j k : Nat} {s : TSort}
    (hoffer : Outcome (fun _ w' => (w'.env side).vars = V) (Within B (.bin op l r))
      (watch (.bin op l r)) w)
    (hl : ∀ {w}, (w.env side).vars = V →
      Outcome (Renders side V l (.bv j)) (Within B l) (translateWith side watch l) w)
    (hr : ∀ {w}, (w.env side).vars = V →
      Outcome (Renders side V r (.bv k)) (Within B r) (translateWith side watch r) w)
    (hop : ∀ (x : Term (.bv j)) (y : Term (.bv k)), ∃ t : Term s,
      Term.binary op ⟨_, x⟩ ⟨_, y⟩ = .ok ⟨_, t⟩) :
    Outcome (Renders side V (.bin op l r) s) (Within B (.bin op l r))
      (translateWith side watch (.bin op l r)) w := by
  refine .bind hoffer fun hs w₁ h₁ => ?_
  refine (hl h₁).translated (fun _ hx => by simp [Exp.walk, hx]) fun x hooks w₂ h₂ sx => ?_
  refine (hr h₂).translated (fun _ hx => by simp [Exp.walk, hx]) fun y hooks' w₃ h₃ sy => ?_
  obtain ⟨t, ht⟩ := hop x y
  exact renders_operation ht h₃
    (fun W hW m => .bin (sx W hW m) (sy W hW m) (Term.binary_value ht m)) _

theorem translateWith_cast {kind : CastKind} {width : Int} {e : Exp} {k : Nat} {s : TSort}
    (hoffer : Outcome (fun _ w' => (w'.env side).vars = V) (Within B (.cast kind width e))
      (watch (.cast kind width e)) w)
    (he : ∀ {w}, (w.env side).vars = V →
      Outcome (Renders side V e (.bv k)) (Within B e) (translateWith side watch e) w)
    (hop : ∀ x : Term (.bv k), ∃ t : Term s, Term.castTo kind width ⟨_, x⟩ = .ok ⟨_, t⟩) :
    Outcome (Renders side V (.cast kind width e) s) (Within B (.cast kind width e))
      (translateWith side watch (.cast kind width e)) w := by
  refine .bind hoffer fun hs w₁ h₁ => ?_
  refine (he h₁).translated (fun _ hx => by simp [Exp.walk, hx]) fun x hooks w₂ h₂ sx => ?_
  obtain ⟨t, ht⟩ := hop x
  exact renders_operation ht h₂ (fun W hW m => .cast (sx W hW m) (Term.castTo_value ht m)) _

/-- The translation of an expression that fits gives a term for its value, unless the watcher faults
at one of its parts. -/
theorem translateWith_outcome (hwatch : Attends side watch B) {e : Exp} {s : TSort}
    (he : e.HasSort s) (hb : Bound V e) (hV : (w.env side).vars = V) :
    Outcome (Renders side V e s) (Within B e) (translateWith side watch e) w := by
  induction he generalizing w V with
  | @var v s hv =>
    refine .bind (hwatch.offered (.var hv) hb hV) fun hs w₁ h₁ => ?_
    obtain ⟨⟨s', t⟩, ht, hsort⟩ := hb v (by simp [Exp.freeVars])
    have hs' : s = s' := Except.ok.inj (hv.symm.trans hsort)
    subst hs'
    rw [← h₁] at ht
    refine .bind (.getVar (P := fun x w' => x = ⟨s, t⟩ ∧ w' = w₁) ht ⟨rfl, rfl⟩) ?_
    rintro _ _ ⟨rfl, rfl⟩
    refine .pure ⟨h₁, t, rfl, fun W hW m => ?_⟩
    rw [← Model.store_of_lookup (hW _ _ (h₁ ▸ ht))]
    exact .var
  | @lit k x hk =>
    refine .bind (hwatch.offered (.lit hk) hb hV) fun hs w₁ h₁ => ?_
    rw [if_neg (Nat.ne_of_gt hk)]
    exact .pure ⟨h₁, .op (.bvLit x), rfl, fun W _ m => .lit (Nat.ne_of_gt hk)⟩
  | load hm ha h0 hc ihm iha =>
    refine .bind (hwatch.offered (.load hm ha h0 hc) hb hV) fun hs w₁ h₁ => ?_
    refine (ihm (hb.part fun v hv => by simp [Exp.freeVars, hv]) h₁).translated
      (fun _ hx => by simp [Exp.walk, hx]) fun x hooks w₂ h₂ sx => ?_
    refine (iha (hb.part fun v hv => by simp [Exp.freeVars, hv]) h₂).translated
      (fun _ hx => by simp [Exp.walk, hx]) fun y hooks' w₃ h₃ sy => ?_
    obtain ⟨t, ht⟩ := Term.load_sorted x y _ h0 hc
    exact renders_operation ht h₃
      (fun W hW m => .load (sx W hW m) (sy W hW m) (Term.load_value ht m)) _
  | store hm ha hv hsize hc ihm iha ihv =>
    refine .bind (hwatch.offered (.store hm ha hv hsize hc) hb hV) fun hs w₁ h₁ => ?_
    refine (ihm (hb.part fun v hv => by simp [Exp.freeVars, hv]) h₁).translated
      (fun _ hx => by simp [Exp.walk, hx]) fun x hooks w₂ h₂ sx => ?_
    refine (iha (hb.part fun v hv => by simp [Exp.freeVars, hv]) h₂).translated
      (fun _ hx => by simp [Exp.walk, hx]) fun y hooks' w₃ h₃ sy => ?_
    refine (ihv (hb.part fun v hv => by simp [Exp.freeVars, hv]) h₃).translated
      (fun _ hx => by simp [Exp.walk, hx]) fun z hooks'' w₄ h₄ sz => ?_
    obtain ⟨t, ht⟩ := Term.storeWord_sorted x y z _ hv.positive hsize hc
    exact renders_operation ht h₄ (fun W hW m =>
      .store (sx W hW m) (sy W hW m) (sz W hW m) (Term.storeWord_value ht m)) _
  | arith hop hcmp hl hr ihl ihr =>
    exact translateWith_bin (hwatch.offered (.arith hop hcmp hl hr) hb hV)
      (ihl (hb.part fun v hv => by simp [Exp.freeVars, hv]))
      (ihr (hb.part fun v hv => by simp [Exp.freeVars, hv])) (Term.binary_arith hop hcmp)
  | compare hcmp hl hr ihl ihr =>
    exact translateWith_bin (hwatch.offered (.compare hcmp hl hr) hb hV)
      (ihl (hb.part fun v hv => by simp [Exp.freeVars, hv]))
      (ihr (hb.part fun v hv => by simp [Exp.freeVars, hv])) (Term.binary_compare hcmp)
  | shift hop hl hr ihl ihr =>
    exact translateWith_bin (hwatch.offered (.shift hop hl hr) hb hV)
      (ihl (hb.part fun v hv => by simp [Exp.freeVars, hv]))
      (ihr (hb.part fun v hv => by simp [Exp.freeVars, hv])) (Term.binary_shift hop hl.positive)
  | un hx ih =>
    refine .bind (hwatch.offered (.un hx) hb hV) fun hs w₁ h₁ => ?_
    refine (ih (hb.part fun v hv => by simp [Exp.freeVars, hv]) h₁).translated
      (fun _ hx => by simp [Exp.walk, hx]) fun x hooks w₂ h₂ sx => ?_
    obtain ⟨t, ht⟩ := Term.unary_sorted _ x
    exact renders_operation ht h₂ (fun W hW m => .un (sx W hW m) (Term.unary_value ht m)) _
  | resize hk h0 hx ih =>
    exact translateWith_cast (hwatch.offered (.resize hk h0 hx) hb hV)
      (ih (hb.part fun v hv => by simp [Exp.freeVars, hv])) (Term.castTo_resize hk h0)
  | cut hk h0 hw hx ih =>
    exact translateWith_cast (hwatch.offered (.cut hk h0 hw hx) hb hV)
      (ih (hb.part fun v hv => by simp [Exp.freeVars, hv])) (Term.castTo_cut hk h0 hw)
  | ite hc hy hn ihc ihy ihn =>
    refine .bind (hwatch.offered (.ite hc hy hn) hb hV) fun hs w₁ h₁ => ?_
    refine (ihc (hb.part fun v hv => by simp [Exp.freeVars, hv]) h₁).translated
      (fun _ hx => by simp [Exp.walk, hx]) fun b hooks w₂ h₂ sb => ?_
    refine (ihy (hb.part fun v hv => by simp [Exp.freeVars, hv]) h₂).translated
      (fun _ hx => by simp [Exp.walk, hx]) fun x hooks' w₃ h₃ sx => ?_
    refine (ihn (hb.part fun v hv => by simp [Exp.freeVars, hv]) h₃).translated
      (fun _ hx => by simp [Exp.walk, hx]) fun y hooks'' w₄ h₄ sy => ?_
    obtain ⟨t, ht⟩ := Term.choose_sorted b x y
    exact renders_operation ht h₄ (fun W hW m =>
      .ite (sb W hW m) (sx W hW m) (sy W hW m) (Term.choose_value ht m)) _
  | extract h0 hlo hhi hx ih =>
    refine .bind (hwatch.offered (.extract h0 hlo hhi hx) hb hV) fun hs w₁ h₁ => ?_
    refine (ih (hb.part fun v hv => by simp [Exp.freeVars, hv]) h₁).translated
      (fun _ hx => by simp [Exp.walk, hx]) fun x hooks w₂ h₂ sx => ?_
    obtain ⟨t, ht⟩ := Term.extractBits_sorted h0 hlo hhi x
    exact renders_operation ht h₂ (fun W hW m => .extract (sx W hW m) (Term.extractBits_value ht m)) _
  | concat hl hr ihl ihr =>
    refine .bind (hwatch.offered (.concat hl hr) hb hV) fun hs w₁ h₁ => ?_
    refine (ihl (hb.part fun v hv => by simp [Exp.freeVars, hv]) h₁).translated
      (fun _ hx => by simp [Exp.walk, hx]) fun x hooks w₂ h₂ sx => ?_
    refine .bind (P := fun _ w' => w' = w₂) rfl ?_
    rintro _ _ rfl
    refine (ihr (hb.part fun v hv => by simp [Exp.freeVars, hv]) h₂).translated
      (fun _ hx => by simp [Exp.walk, hx]) fun y hooks' w₃ h₃ sy => ?_
    obtain ⟨t, ht⟩ := Term.concatWords_sorted x y
    exact renders_operation ht h₃
      (fun W hW m => .concat (sx W hW m) (sy W hW m) (Term.concatWords_value ht m)) _
  | @letIn v s s' value body hs hv hbody ihv ihb =>
    refine .bind (hwatch.offered (.letIn hs hv hbody) hb hV) fun _ w₁ h₁ => ?_
    refine (ihv (hb.part fun v hv => by simp [Exp.freeVars, hv]) h₁).translated
      (fun _ hx => by simp [Exp.walk, hx]) fun x hooks w₂ h₂ sx => ?_
    -- The body is translated where the variable stands for the value.
    have hbinding := Outcome.binding (P := fun r : SomeTerm × List Hook =>
      ∃ t : Term s', r.1 = ⟨s', t⟩ ∧ Stands (V.put v ⟨s, x⟩) body ⟨s', t⟩) h₂ fun w' hw' =>
        ((ihb (hb.body hs x) hw').part (e := .letIn v value body)
          fun _ hx => by simp [Exp.walk, hx]).mono (fun r w'' h => ⟨h.2, h.1⟩) fun _ hf => hf
    refine .bind hbinding ?_
    rintro ⟨_, hooks'⟩ w₃ ⟨⟨t, rfl, st⟩, h₃⟩
    refine .pure ⟨h₃, t, rfl, fun W hW m => .letIn (sx W hW m) ?_⟩
    rw [← Model.store_put]
    exact st _ (hW.put v _) m

end Walk

end Precond
