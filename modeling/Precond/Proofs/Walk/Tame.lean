import Precond.Proofs.Constraint.Contained
import Precond.Proofs.Env.Safe
import Precond.Proofs.Walk.Keeps
import Precond.Proofs.Walk.Sorted

/-! Walks under safe policies are tame: from environments that fit the policies they come to
environments that fit them, with a result of which more may be known, or with a fault that is
contained. -/

namespace Precond

open IR

/-- Both environments fit their policies. -/
def World.Fits (w : World) (P : Side → Env) : Prop := ∀ side, (w.env side).Fits (P side)

theorem World.Fits.setEnv {P : Side → Env} {w : World} {side : Side} {e : Env} (hw : w.Fits P)
    (he : e.Fits (P side)) : (w.setEnv side e).Fits P := by
  intro side'
  by_cases hs : side' = side
  · subst hs
    rw [World.env_setEnv]
    exact he
  · rw [World.env_setEnv_of_ne _ _ _ hs]
    exact hw side'

namespace Walk

theorem walk_child {e e' : Exp} (h : e' ∈ e.children) : ∀ x ∈ e'.walk, x ∈ e.walk := by
  intro x hx
  cases e <;> simp only [Exp.children, List.mem_cons, List.not_mem_nil, or_false] at h
  all_goals
    simp only [Exp.walk, List.mem_cons, List.mem_append]
    grind

/-- The policies of both programs are safe. -/
class Policed (P : Side → Env) : Prop where
  safe (side : Side) : (P side).Safe

/-- The contained faults are among the faults. -/
class Bears (F : Fault → Prop) : Prop where
  contained {f : Fault} : f.Contained → F f

instance : Bears Fault.Contained := ⟨id⟩

/-- From worlds that fit policies the action comes to such worlds, with a result of which `Q` holds,
or with a fault of which `F` holds. -/
structure Tame (P : Side → Env) (F : Fault → Prop) (Q : α → Prop) (x : Walk α) : Prop where
  outcome {w : World} : w.Fits P → Outcome (fun a w' => w'.Fits P ∧ Q a) F x w

namespace Tame

variable {P : Side → Env} {F : Fault → Prop} {Q R : α → Prop} {x : Walk α} {side : Side}

theorem pure {a : α} (h : Q a) : Tame P F Q (Pure.pure a) := ⟨fun hw => .pure ⟨hw, h⟩⟩

theorem bind {S : β → Prop} {k : α → Walk β} (hx : Tame P F Q x)
    (hk : ∀ a, Q a → Tame P F S (k a)) : Tame P F S (x >>= k) :=
  ⟨fun hw => (hx.outcome hw).bind fun a _ h => (hk a h.2).outcome h.1⟩

theorem mono (h : Tame P F Q x) (hQ : ∀ a, Q a → R a) : Tame P F R x :=
  ⟨fun hw => (h.outcome hw).mono (fun a _ h => ⟨h.1, hQ a h.2⟩) fun _ => id⟩

theorem ite {c : Prop} [Decidable c] {x y : Walk α} (hx : c → Tame P F Q x) (hy : ¬ c → Tame P F Q y) :
    Tame P F Q (if c then x else y) := by
  split
  · exact hx ‹_›
  · exact hy ‹_›

/-- What is read of an environment. -/
theorem env {k : Env → Walk α} (h : ∀ e : Env, e.Fits (P side) → Tame P F Q (k e)) :
    Tame P F Q (Walk.env side >>= k) := ⟨fun {w} hw => (h (w.env side) (hw side)).outcome hw⟩

theorem modifyEnv {f : Env → Env} (h : ∀ e : Env, e.Fits (P side) → (f e).Fits (P side)) :
    Tame P F (fun _ => True) (Walk.modifyEnv side f) :=
  ⟨fun hw => .modifyEnv ⟨hw.setEnv (h _ (hw side)), True.intro⟩⟩

theorem restoring {f : Env → Env} (h : ∀ e : Env, e.Fits (P side) → (f e).Fits (P side))
    (hx : Tame P F Q x) : Tame P F Q (Walk.restoring side f x) :=
  ⟨fun hw => .restoring ((hx.outcome hw).mono (fun _ _ h' => ⟨h'.1.setEnv (h _ (h'.1 side)), h'.2⟩)
    fun _ => id)⟩

theorem mapM {R : β → α → Prop} {xs : List β} {f : β → Walk α}
    (h : ∀ x ∈ xs, Tame P F (R x) (f x)) : Tame P F (List.Forall₂ R xs) (xs.mapM f) := by
  induction xs with
  | nil => exact .pure .nil
  | cons x xs ih =>
    rw [List.mapM_cons]
    refine (h x List.mem_cons_self).bind fun y hy => ?_
    refine (ih fun z hz => h z (List.mem_cons_of_mem x hz)).bind fun ys hys => ?_
    exact .pure (.cons hy hys)

/-- Of all results the same is known. -/
theorem mapM_all {xs : List β} {f : β → Walk α} (h : ∀ x ∈ xs, Tame P F Q (f x)) :
    Tame P F (fun ys => ∀ y ∈ ys, Q y) (xs.mapM f) := by
  refine (mapM (R := fun _ => Q) h).mono fun ys hys => ?_
  induction hys with
  | nil => exact nofun
  | cons hy _ ih =>
    exact List.forall_mem_cons.mpr ⟨hy, ih fun z hz => h z (List.mem_cons_of_mem _ hz)⟩

/-- A change that is not one of the environments. -/
theorem unseen {x : Walk α} {f : World → World} {g : World → α} (hx : ∀ w, x w = .ok (g w) (f w))
    (hf : ∀ w side, (f w).env side = w.env side) : Tame P F (fun _ => True) x := by
  refine ⟨fun {w} hw => ?_⟩
  rw [Outcome, hx]
  exact ⟨fun side => hf w side ▸ hw side, True.intro⟩

theorem newNode : Tame P F (fun _ => True) Walk.newNode :=
  unseen (fun _ => rfl) fun _ side => by cases side <;> rfl

theorem mkGoal (name : String) (value : Term .bool) (tid : Option String) :
    Tame P F Constr.Formal (Walk.mkGoal name value tid) :=
  newNode.bind fun _ _ => .pure (Constr.formal_goal ..)

theorem mkClause {hyps goals : List Constr} (hh : ∀ c ∈ hyps, c.Formal) (hg : ∀ c ∈ goals, c.Formal) :
    Tame P F Constr.Formal (Walk.mkClause hyps goals) :=
  newNode.bind fun _ _ => .pure (Constr.formal_clause hh hg)

theorem mkBranch {yes no : Constr} (jump : String) (cond : Term .bool) (hy : yes.Formal)
    (hn : no.Formal) : Tame P F Constr.Formal (Walk.mkBranch jump cond yes no) :=
  newNode.bind fun _ _ => .pure (Constr.formal_branch hy hn)

theorem trivial : Tame P F Constr.Formal Walk.trivial := mkGoal ..

theorem conjoin {cs : List Constr} (h : ∀ c ∈ cs, c.Formal) :
    Tame P F Constr.Formal (Walk.conjoin cs) := by
  unfold Walk.conjoin
  split
  · exact .pure (h _ List.mem_cons_self)
  · exact mkClause nofun h

theorem guard (assumes verifies : List Hook) {post : Constr} (h : post.Formal) :
    Tame P F Constr.Formal (Walk.guard assumes verifies post) := by
  refine ite (fun _ => .pure h) fun _ => ?_
  refine (mapM_all fun _ _ => mkGoal ..).bind fun hyps hh => ?_
  refine (mapM_all fun _ _ => mkGoal ..).bind fun goals hg => mkClause hh fun c hc => ?_
  rcases List.mem_append.mp hc with hc | hc
  · exact hg c hc
  · exact List.mem_singleton.mp hc ▸ h

/-- Terms are replaced by terms of their sorts. -/
theorem substitute {c : Constr} {olds news : List SomeTerm} (hc : c.Formal)
    (h : List.Forall₂ (fun old new => old.1 = new.1) olds news) :
    Tame P F Constr.Formal (Walk.substitute c olds news) := by
  refine ite (fun _ => .pure hc) fun _ => ?_
  rw [if_neg (not_not.mpr h.length_eq)]
  refine newNode.bind fun _ _ => .pure (Constr.formal_pairs hc fun p hp => ?_)
  exact List.forall₂_iff_zip.mp h |>.2 hp

theorem replaceAll {c : Constr} {pairs : List (SomeTerm × SomeTerm)} (hc : c.Formal)
    (h : ∀ p ∈ pairs, p.1.1 = p.2.1) : Tame P F Constr.Formal (Walk.replaceAll c pairs) := by
  refine substitute hc ?_
  rw [List.forall₂_map_left_iff, List.forall₂_map_right_iff, List.forall₂_same]
  exact h

theorem binding {v : Var} {t : SomeTerm} (ht : Env.OfType v.type t) (hx : Tame P F Q x) :
    Tame P F Q (Walk.binding side v t x) := by
  refine ⟨fun {w} hw => ?_⟩
  rw [Outcome, binding_eq, ← Outcome]
  refine .restoring ((hx.outcome (hw.setEnv ((hw side).put ht))).mono (fun a w' h => ⟨?_, h.2⟩)
    fun _ => id)
  exact h.1.setEnv ((hw side).restoreVar (h.1 side) v)

/-- Each part of the expression is safe, and the watcher is tame at it. -/
def Watched (P : Side → Env) (F : Fault → Prop) (watch : Exp → Walk (List Hook)) (e : Exp) : Prop :=
  ∀ e' ∈ e.walk, Tame P F (fun _ => True) (watch e') ∧ e'.safe

theorem Watched.part {watch : Exp → Walk (List Hook)} {e e' : Exp} (h : Watched P F watch e)
    (he : e' ∈ e.children) : Watched P F watch e' := fun x hx => h x (walk_child he x hx)

variable [Bears F]

theorem throw {f : Fault} (h : f.Contained) : Tame P F Q (MonadExcept.throw f) :=
  ⟨fun _ => .throw (Bears.contained h)⟩

theorem ofExcept {y : Except Fault α} (h : Ends Q y) : Tame P F Q (Walk.ofExcept y) :=
  ⟨fun hw => .ofExcept (fun _ ha => ⟨hw, h.of_ok ha⟩) fun _ hf => Bears.contained (h.of_error hf)⟩

theorem lift {y : Except Fault α} (h : Ends Q y) : Tame P F Q (liftM y : Walk α) := ofExcept h

theorem on {act : EnvM α} (h : Env.Tame (P side) Q act) : Tame P F Q (Walk.on side act) := by
  refine ⟨fun {w} hw => .on (fun a e ha => ?_) fun f e hf => Bears.contained (h.error (hw side) hf)⟩
  obtain ⟨he, hQ⟩ := h.ok (hw side) ha
  exact ⟨hw.setEnv he, hQ⟩

theorem mkVar {v : Var} (hv : v.sorted) :
    Tame P F (Env.OfType v.type) (Walk.on side (Env.mkVar v)) := on (.mkVar hv)

theorem note (kind : WeakeningKind) (tid detail : String) :
    Tame P F (fun _ => True) (Walk.on side (Env.note kind tid detail)) := on (.note ..)

/-! ### Translation -/

/-- The term is of the sort of the expression. -/
def Typed (e : Exp) (t : SomeTerm) : Prop := e.sort? = some t.1 ∧ t.1.Positive

theorem typed_of_type {e : Exp} {type : Ty} {t : SomeTerm} (he : e.sort? = type.sort?)
    (ht : Env.OfType type t) : Typed e t :=
  ⟨he.trans (Ty.sort?_eq_some.mpr ht), Ty.sort_positive ht⟩

theorem addresses_of_typed {mem addr : Exp} {m a : SomeTerm}
    (h : Exp.addresses mem.sort? addr.sort?) (hm : Typed mem m) (ha : Typed addr a) :
    Term.Addresses m.1 a.1 := by
  intro i c k hi hk
  rw [hm.1, ha.1, hi, hk] at h
  exact eq_of_beq h

/-- What an operation makes of terms of the parts, with the conditions that have been given. -/
theorem operation {op : Except Fault SomeTerm} {e : Exp} (h : Ends (Typed e) op) (hooks : List Hook) :
    Tame P F (fun r => Typed e r.1) ((liftM op : Walk SomeTerm) >>= fun z => Pure.pure (z, hooks)) :=
  (lift h).bind fun _ hz => pure hz

theorem translateWith {watch : Exp → Walk (List Hook)} {e : Exp} (h : Watched P F watch e) :
    Tame P F (fun r => Typed e r.1) (Walk.translateWith side watch e) := by
  induction e with
  | var v =>
    exact (h _ (mem_walk_self _)).1.bind fun _ _ => (on (.getVar v)).bind fun t ht =>
      pure (typed_of_type rfl ht)
  | @lit w x =>
    obtain ⟨hself, hsafe⟩ := h _ (mem_walk_self _)
    have hpos : 0 < w := of_decide_eq_true hsafe
    rw [Walk.translateWith]
    refine hself.bind fun _ _ => ?_
    rw [if_neg hpos.ne']
    exact pure ⟨rfl, hpos⟩
  | bin op l r ihl ihr =>
    obtain ⟨hself, -⟩ := h _ (mem_walk_self _)
    refine hself.bind fun _ _ => (ihl (h.part (by simp [Exp.children]))).bind fun x hx => ?_
    refine (ihr (h.part (by simp [Exp.children]))).bind fun y hy => ?_
    refine operation ((Term.binary_ends hx.2).mono fun t ht => ?_) _
    rw [OfSort] at ht
    rw [Typed, Exp.sort?, ht]
    split
    · exact ⟨rfl, Nat.one_pos⟩
    · exact hx
  | un op x ih =>
    obtain ⟨hself, -⟩ := h _ (mem_walk_self _)
    refine hself.bind fun _ _ => (ih (h.part (by simp [Exp.children]))).bind fun x hx => ?_
    refine operation ((Term.unary_ends op).mono fun t ht => ?_) _
    rw [OfSort] at ht
    rw [Typed, Exp.sort?, ht]
    exact hx
  | cast kind width x ih =>
    obtain ⟨hself, hsafe⟩ := h _ (mem_walk_self _)
    have hpos : 0 < width := of_decide_eq_true hsafe
    refine hself.bind fun _ _ => (ih (h.part (by simp [Exp.children]))).bind fun x hx => ?_
    refine operation ((Term.castTo_ends hpos).mono fun t ht => ?_) _
    rw [OfSort] at ht
    rw [Typed, Exp.sort?, ht]
    exact ⟨rfl, show 0 < width.toNat by omega⟩
  | load mem addr endian size ihm iha =>
    obtain ⟨hself, hsafe⟩ := h _ (mem_walk_self _)
    obtain ⟨hpos, haddr⟩ := Bool.and_eq_true_iff.mp hsafe
    have hpos : 0 < size := of_decide_eq_true hpos
    refine hself.bind fun _ _ => (ihm (h.part (by simp [Exp.children]))).bind fun m hm => ?_
    refine (iha (h.part (by simp [Exp.children]))).bind fun a ha => ?_
    refine operation ((Term.load_ends hpos (addresses_of_typed haddr hm ha)).mono fun t hsort => ?_) _
    have ht := hsort.1
    rw [OfSort] at ht
    rw [Typed, Exp.sort?, ht]
    exact ⟨rfl, show 0 < size.toNat by omega⟩
  | store mem addr value endian size ihm iha ihv =>
    obtain ⟨hself, haddr⟩ := h _ (mem_walk_self _)
    refine hself.bind fun _ _ => (ihm (h.part (by simp [Exp.children]))).bind fun m hm => ?_
    refine (iha (h.part (by simp [Exp.children]))).bind fun a ha => ?_
    refine (ihv (h.part (by simp [Exp.children]))).bind fun v hv => ?_
    refine operation ((Term.storeWord_ends hv.2 (addresses_of_typed haddr hm ha)).mono fun t ht => ?_) _
    rw [OfSort] at ht
    rw [Typed, Exp.sort?, ht]
    exact hm
  | ite cond yes no ihc ihy ihn =>
    obtain ⟨hself, -⟩ := h _ (mem_walk_self _)
    refine hself.bind fun _ _ => (ihc (h.part (by simp [Exp.children]))).bind fun c _ => ?_
    refine (ihy (h.part (by simp [Exp.children]))).bind fun x hx => ?_
    refine (ihn (h.part (by simp [Exp.children]))).bind fun y _ => ?_
    refine operation (Term.choose_ends.mono fun t ht => ?_) _
    rw [OfSort] at ht
    rw [Typed, Exp.sort?, ht]
    exact hx
  | extract hi lo x ih =>
    obtain ⟨hself, -⟩ := h _ (mem_walk_self _)
    refine hself.bind fun _ _ => (ih (h.part (by simp [Exp.children]))).bind fun x hx => ?_
    refine operation (Term.extractBits_ends.mono fun t hbits => ?_) _
    obtain ⟨h0, hle, ht⟩ := hbits
    rw [Typed, Exp.sort?, ht]
    exact ⟨rfl, show 0 < (hi - lo + 1).toNat by omega⟩
  | concat l r ihl ihr =>
    obtain ⟨hself, -⟩ := h _ (mem_walk_self _)
    refine hself.bind fun _ _ => (ihl (h.part (by simp [Exp.children]))).bind fun x hx => ?_
    have hword : Tame P F (fun _ => True) (Walk.ofExcept (x.1.word "concat")) :=
      ofExcept (Term.word_ends _)
    refine hword.bind fun _ _ => ?_
    refine (ihr (h.part (by simp [Exp.children]))).bind fun y hy => ?_
    refine operation (Term.concatWords_ends.mono fun t hwords => ?_) _
    obtain ⟨w, v, hw, hv, ht⟩ := hwords
    rw [Typed, Exp.sort?, hx.1, hy.1, hw, hv, ht]
    have hpos : 0 < w := by
      have hword := hx.2
      rwa [hw] at hword
    exact ⟨rfl, Nat.add_pos_left hpos v⟩
  | letIn v value body ihv ihb =>
    obtain ⟨hself, hsafe⟩ := h _ (mem_walk_self _)
    refine hself.bind fun _ _ => (ihv (h.part (by simp [Exp.children]))).bind fun x hx => ?_
    have hv : Env.OfType v.type x.1 := by
      rw [Exp.safe, hx.1] at hsafe
      exact Ty.sort?_eq_some.mp (eq_of_beq hsafe)
    exact (binding hv (ihb (h.part (by simp [Exp.children])))).bind fun y hy => pure hy
  | unknown text type =>
    obtain ⟨hself, hsafe⟩ := h _ (mem_walk_self _)
    exact hself.bind fun _ _ => (on (.fresh hsafe _)).bind fun t ht => pure (typed_of_type rfl ht)

theorem translate {e : Exp} (he : ∀ e' ∈ e.walk, e'.safe) :
    Tame P F (Typed e) (Walk.translate side e) :=
  (translateWith fun e' h => ⟨pure True.intro, he e' h⟩).bind fun _ hr => pure hr

theorem condition {e : Exp} (he : ∀ e' ∈ e.walk, e'.safe) :
    Tame P F (fun _ => True) (Walk.condition side e) :=
  (translate he).bind fun _ _ => lift Term.condition_ends

/-- A part that has a width. -/
theorem translate_sized {e : Exp} (he : ∀ e' ∈ e.walk, e'.safe) (hw : Exp.wordy e.sort?) :
    Tame P F (fun t => ∃ w, t.1 = .bv w) (Walk.translate side e) := by
  refine (translate he).mono fun t ht => ?_
  rw [ht.1] at hw
  revert hw
  cases t.1 with
  | bv w => exact fun _ => ⟨w, rfl⟩
  | bool | mem => exact nofun

theorem accessed?_child {access : Access} {e addr : Exp} {size : Int}
    (h : accessed? access e = some (addr, size)) : addr ∈ e.children := by
  unfold accessed? at h
  split at h
  · split at h <;> cases h
    simp [Exp.children]
  · split at h <;> cases h
    simp [Exp.children]
  · cases h

theorem sideCondition {rule : SideRule} {e : Exp} (he : ∀ e' ∈ e.walk, e'.safe) (hr : rule.safe e) :
    Tame P F (fun _ => True) (Walk.sideCondition side e rule) := by
  have hchild {e' : Exp} (h : e' ∈ e.children) : ∀ x ∈ e'.walk, x.safe :=
    fun x hx => he x (walk_child h x hx)
  unfold Walk.sideCondition
  split
  · split
    · exact pure True.intro
    · rename_i addr size hacc
      rw [SideRule.safe, hacc] at hr
      refine (translate_sized (hchild (accessed?_child hacc)) hr).bind fun t hsized => ?_
      obtain ⟨w, ht⟩ := hsized
      exact (lift (Term.sized_ends ht)).bind fun _ _ => pure True.intro
  · split
    · exact pure True.intro
    · rename_i addr size hacc
      rw [SideRule.safe, hacc] at hr
      refine (translate_sized (hchild (accessed?_child hacc)) hr).bind fun t hsized => ?_
      obtain ⟨w, ht⟩ := hsized
      exact (lift (Term.sized_ends ht)).bind fun _ _ => env fun _ _ => pure True.intro
  · split
    · rename_i op l divisor
      refine ite (fun hop => ?_) fun _ => pure True.intro
      rw [SideRule.safe, hop] at hr
      refine (translate_sized (hchild (by simp [Exp.children])) hr).bind fun t hsized => ?_
      obtain ⟨w, ht⟩ := hsized
      exact (lift (Term.sized_ends ht)).bind fun _ _ => pure True.intro
    · exact pure True.intro
  · rename_i width distance
    split
    · rename_i mem addr endian size
      obtain ⟨hwidth, hmem⟩ := Bool.and_eq_true_iff.mp hr
      have hwidth : 0 < width := of_decide_eq_true hwidth
      have hself := he _ (mem_walk_self _)
      obtain ⟨hpos, haddr⟩ := Bool.and_eq_true_iff.mp hself
      have hpos : 0 < size := of_decide_eq_true hpos
      refine (translate (hchild (by simp [Exp.children]))).bind fun a ha => ?_
      have hvar : ∀ x ∈ (Exp.var mem).walk, x.safe := hchild (by simp [Exp.children])
      refine (translate hvar).bind fun m hm => ?_
      refine (lift (Term.load_ends hpos (addresses_of_typed haddr hm ha))).bind fun orig horig => ?_
      obtain ⟨horig, i, c, hi, hi'⟩ := horig
      have hsort : mem.type.sort? = some (.mem i c) := hi ▸ hm.1
      obtain rfl : width = i := by
        rw [hsort] at hmem
        exact eq_of_beq hmem
      have hsorted : mem.sorted := by rw [Var.sorted, hsort]; rfl
      refine (on (.mkVar hsorted)).bind fun m' hm' => ?_
      have hm' : m'.1 = .mem width c :=
        Option.some.inj ((Ty.sort?_eq_some.mpr hm').symm.trans hsort)
      rw [if_neg hwidth.ne']
      refine (lift (Term.as_ends hi')).bind fun moved _ => ?_
      have haddr' : Term.Addresses m'.1 (.bv width) := by
        intro j d k hj hk
        rw [hm'] at hj
        cases hj
        cases hk
        rfl
      have hload (x : Term (.bv width)) : Ends (fun t => OfSort (.bv size.toNat) t ∧
          ∃ a c, m'.1 = .mem a c ∧ TSort.bv width = .bv a) (Term.load m' ⟨_, x⟩ size endian) :=
        Term.load_ends hpos haddr'
      refine (lift (hload _)).bind fun mod hmod => ?_
      exact (lift (Term.eq_ends (hmod.1.trans horig.symm))).bind fun _ _ => pure True.intro
    · exact pure True.intro
  · cases hr

theorem walk_trans {e e' : Exp} (h : e' ∈ e.walk) : ∀ x ∈ e'.walk, x ∈ e.walk := by
  intro x hx
  induction e
  all_goals
    simp only [Exp.walk, List.mem_cons, List.mem_append] at h ⊢
    grind [Exp.walk]

theorem sideConditions {rules : List SideRule} {e : Exp} (he : ∀ e' ∈ e.walk, e'.safe)
    (hr : ∀ r ∈ rules, r.safe e) : Tame P F (fun _ => True) (Walk.sideConditions side rules e) := by
  induction rules with
  | nil => exact pure True.intro
  | cons r rules ih =>
    exact (sideCondition he (hr r List.mem_cons_self)).bind fun _ _ =>
      (ih fun r' h => hr r' (List.mem_cons_of_mem r h)).bind fun _ _ => pure True.intro

theorem translateChecked {e : Exp} (he : e.safeUnder (P side).sideRules) :
    Tame P F (fun r => Typed e r.1) (Walk.translateChecked side e) := by
  have hcount : Tame P F (fun _ => True) (modify fun w : World =>
      { w with translations := w.translations + 1 }) :=
    unseen (fun _ => rfl) fun _ side => by cases side <;> rfl
  refine hcount.bind fun _ _ => env fun e₁ he₁ => translateWith fun e' h => ?_
  have hparts : ∀ x ∈ e.walk, x.safe ∧ ∀ r ∈ (P side).sideRules, r.safe x := by
    simpa [Exp.safeUnder] using he
  rw [he₁.sideRules]
  exact ⟨sideConditions (fun x hx => (hparts x (walk_trans h x hx)).1) (hparts e' h).2, (hparts e' h).1⟩

end Tame

end Walk

end Precond
