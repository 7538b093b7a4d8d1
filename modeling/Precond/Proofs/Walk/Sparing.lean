import Precond.Proofs.Constraint.Spare
import Precond.Proofs.Walk.Hooks

/-! Conditions some of which are taken for established. The conditions on divisors are told apart by
their names, and the others of a translation are what the other side rules ask for
(`Walk.translateChecked_spares`). A constraint under conditions has to prove those only that are not
spared (`Walk.guard_spares`). -/

namespace Precond.Walk

open IR

variable {side : Side} {w w' : World}

/-- The goals that divisors are not zero. -/
def isDivisorGoal (name : String) : Bool := CallRule.startsWith "non-zero divisor: " name

theorem startsWith_append (front text : String) : CallRule.startsWith front (front ++ text) := by
  rw [CallRule.startsWith, String.toList_append, ← String.length_toList, List.take_left, beq_self_eq_true]

/-- A name with another beginning. -/
theorem startsWith_of_ne {front other : String} (text : String)
    (h : front.toList.take other.length ≠ other.toList) (hl : other.length ≤ front.length) :
    CallRule.startsWith front (other ++ text) = false := by
  refine beq_false_of_ne fun he => h ?_
  rw [← he, List.take_take, Nat.min_eq_left hl, String.toList_append, ← String.length_toList, List.take_left]

/-! ### Watchers that keep some conditions -/

/-- The watcher whose conditions are those of another one that are kept. -/
def keeping (keep : Hook → Bool) (watch : Exp → Walk (List Hook)) : Exp → Walk (List Hook) :=
  fun e => (·.filter keep) <$> watch e

/-- A translation with the conditions that are kept. -/
def keptOf (keep : Hook → Bool) (p : SomeTerm × List Hook) : SomeTerm × List Hook :=
  (p.1, p.2.filter keep)

theorem binding_map (f : α → β) (v : Var) (x : SomeTerm) (act : Walk α) :
    binding side v x (f <$> act) = f <$> binding side v x act := by
  have hrestoring (g : Env → Env) : restoring side g (f <$> act) = f <$> restoring side g act := by
    funext w
    show restoring side g (EStateM.map f act) w = EStateM.map f (restoring side g act) w
    rw [restoring, EStateM.map, EStateM.map, restoring]
    cases act w <;> rfl
  unfold binding
  simp only [hrestoring, map_bind]

/-- To keep conditions of the parts is to keep them in the end. -/
theorem translateWith_keeping (keep : Hook → Bool) (watch : Exp → Walk (List Hook)) (e : Exp) :
    translateWith side (keeping keep watch) e = keptOf keep <$> translateWith side watch e := by
  induction e with
  | var v => simp [translateWith, keeping, keptOf]
  | lit x =>
    simp only [translateWith, keeping, map_bind, bind_map_left]
    congr 1
    funext hs
    split
    · rfl
    · simp [keptOf]
  | letIn v value body ihv ihb =>
    simp [translateWith, ihv, ihb, binding_map, keeping, keptOf]
  | unknown desc type => simp [translateWith, keeping, keptOf]
  | _ => simp_all [translateWith, keeping, keptOf]

/-! ### Side rules -/

variable {regions : Regions} {spared : String → Bool} {rules : List SideRule}

/-- The condition is to be kept: it is not spared. -/
def unspared (spared : String → Bool) (h : Hook) : Bool := !spared h.name

/-- What a rule asks for bears its name. -/
theorem sideCondition_name {rule : SideRule} (hr : rule.isLocal) {e : Exp} {h : Option Hook} {k : Hook}
    (hh : sideCondition side e rule w = .ok h w') (hk : k ∈ h.toList) :
    isDivisorGoal k.name = decide (rule = .nonZeroDivisor) := by
  cases rule with
  | nonNull access duty =>
    rw [sideCondition] at hh
    cases hsome : accessed? access e with
    | none =>
      rw [hsome] at hh
      cases hh
      cases hk
    | some p =>
      rw [hsome] at hh
      obtain ⟨n, x, w₁, -, -, h₁⟩ := sized_ok hh
      cases h₁
      cases List.mem_singleton.mp hk
      rw [isDivisorGoal, String.append_assoc, String.append_assoc]
      exact startsWith_of_ne _ (by decide) (by decide)
  | validAccess access duty =>
    rw [sideCondition] at hh
    cases hsome : accessed? access e with
    | none =>
      rw [hsome] at hh
      cases hh
      cases hk
    | some p =>
      rw [hsome] at hh
      obtain ⟨n, x, w₁, -, -, h₁⟩ := sized_ok hh
      obtain ⟨e₁, w₂, -, h₂⟩ := bind_ok h₁
      cases h₂
      cases List.mem_singleton.mp hk
      rw [isDivisorGoal, String.append_assoc, String.append_assoc]
      exact startsWith_of_ne _ (by decide) (by decide)
  | nonZeroDivisor =>
    unfold sideCondition at hh
    dsimp only at hh
    split at hh
    · split at hh
      · obtain ⟨n, x, w₁, -, -, h₁⟩ := sized_ok hh
        cases h₁
        cases List.mem_singleton.mp hk
        exact startsWith_append ..
      · cases hh
        cases hk
    · cases hh
      cases hk
  | offsetRead | custom => cases hr

/-- The goals on divisors are spared where they are asked for, or nothing is spared. -/
def Spares (spared : String → Bool) (rules : List SideRule) : Prop :=
  spared = isDivisorGoal ∨ .nonZeroDivisor ∉ rules ∧ ∀ name, spared name = false

/-- The side rules whose conditions are not spared. -/
def unsparedRules (rules : List SideRule) : List SideRule := rules.filter (· ≠ .nonZeroDivisor)

theorem Spares.of_cons {rule : SideRule} (h : Spares spared (rule :: rules)) : Spares spared rules :=
  h.imp_right fun ⟨hno, hname⟩ => ⟨fun hm => hno (List.mem_cons_of_mem _ hm), hname⟩

theorem Spares.head {rule : SideRule} (hs : Spares spared (rule :: rules)) (hr : rule.isLocal) {e : Exp}
    {h : Option Hook} (hh : sideCondition side e rule w = .ok h w') :
    (rule = .nonZeroDivisor ∧ h.toList.filter (unspared spared) = []) ∨
      (rule ≠ .nonZeroDivisor ∧ h.toList.filter (unspared spared) = h.toList) := by
  have hname {k : Hook} (hk : k ∈ h.toList) : spared k.name = decide (rule = .nonZeroDivisor) := by
    rcases hs with rfl | ⟨hno, hnothing⟩
    · exact sideCondition_name hr hh hk
    · rw [hnothing]
      exact (decide_eq_false fun he : rule = .nonZeroDivisor => hno (he ▸ List.mem_cons_self)).symm
  by_cases hrule : rule = .nonZeroDivisor
  · refine .inl ⟨hrule, List.filter_eq_nil_iff.mpr fun k hk => ?_⟩
    rw [unspared, hname hk, decide_eq_true hrule]
    exact Bool.false_ne_true
  · refine .inr ⟨hrule, List.filter_eq_self.mpr fun k hk => ?_⟩
    rw [unspared, hname hk, decide_eq_false hrule]
    rfl

theorem sideConditions_spares (hs : Spares spared rules) (hr : ∀ r ∈ rules, r.isLocal) {e : Exp}
    (he : e.known) (hw : regions = ⟨(w.env side).stack, (w.env side).heap⟩) {hooks : List Hook}
    (hh : sideConditions side rules e w = .ok hooks w') :
    w.Drawn side w' ∧ Tells (fun σ => Asked regions (unsparedRules rules) σ e) (w.env side).vars
      (hooks.filter (unspared spared)) := by
  induction rules generalizing w hooks with
  | nil =>
    cases hh
    exact ⟨.refl .., .none fun σ d b ⟨r, hr, _⟩ => nomatch hr⟩
  | cons rule rules ih =>
    obtain ⟨h, w₁, hh₁, h₁⟩ := bind_ok hh
    obtain ⟨rest, w₂, hrest, h₂⟩ := bind_ok h₁
    cases h₂
    obtain ⟨hd, hrule⟩ := sideCondition_tells (hr rule List.mem_cons_self) he hw hh₁
    obtain ⟨names, henv, -⟩ := id hd.env
    obtain ⟨hd₁, hrules⟩ := ih hs.of_cons (fun r hr' => hr r (List.mem_cons_of_mem _ hr'))
      (by rw [henv]; exact hw) hrest
    rw [hd.vars] at hrules
    refine ⟨hd.trans hd₁, ?_⟩
    rw [List.filter_append]
    rcases hs.head (hr rule List.mem_cons_self) hh₁ with ⟨rfl, hfilter⟩ | ⟨hne, hfilter⟩
    · rw [hfilter, List.nil_append, unsparedRules, List.filter_cons_of_neg (by simp)]
      exact hrules
    · rw [hfilter, unsparedRules, List.filter_cons_of_pos (by simpa using hne)]
      refine (hrule.append hrules).congr fun σ d b => ?_
      simp only [Asked, List.mem_cons, exists_eq_or_imp]
      rfl

theorem watches_spares (hs : Spares spared rules) (hr : ∀ r ∈ rules, r.isLocal) :
    Watches side (fun e => regions = ⟨e.stack, e.heap⟩) False
      (keeping (unspared spared) (sideConditions side rules)) (Asked regions (unsparedRules rules)) := by
  refine ⟨fun _ h => h, fun _ h => h, False.elim, fun he hw h => ?_⟩
  obtain ⟨hooks, w₁, hh, h₁⟩ := bind_ok (by rwa [keeping, map_eq_pure_bind] at h)
  cases h₁
  exact sideConditions_spares hs hr (he.resolve_right id) hw hh

/-- The conditions of a translation that are not spared are those that the other rules ask for. -/
theorem translateChecked_spares (hs : Spares spared (w.env side).sideRules)
    (hr : ∀ r ∈ (w.env side).sideRules, r.isLocal) {e : Exp} (he : e.known) {t : SomeTerm}
    {hooks : List Hook} (h : translateChecked side e w = .ok (t, hooks) w') :
    w.Drawn side w' ∧ Stands (w.env side).vars e t ∧ (∀ k ∈ hooks, k.placement = .before) ∧
      Tells (Demands ⟨(w.env side).stack, (w.env side).heap⟩ (unsparedRules (w.env side).sideRules) · e)
        (w.env side).vars (hooks.filter (unspared spared)) := by
  obtain ⟨hd, hst, htells⟩ := translateChecked_tells he hr h
  refine ⟨hd, hst, htells.before, ?_⟩
  obtain ⟨u, w₁, h₁, h₂⟩ := bind_ok h
  cases h₁
  obtain ⟨e₁, w₂, h₃, h₄⟩ := bind_ok h₂
  obtain ⟨rfl, rfl⟩ := env_ok h₃
  have henv : World.env { w with translations := w.translations + 1 } side = w.env side := by
    cases side <;> rfl
  have hkeeping : translateWith side (keeping (unspared spared)
      (sideConditions side (World.env { w with translations := w.translations + 1 } side).sideRules)) e
        { w with translations := w.translations + 1 } =
      .ok (t, hooks.filter (unspared spared)) w' := by
    rw [translateWith_keeping, map_eq_pure_bind]
    exact bind_of_ok h₄
  rw [henv] at hkeeping
  exact (translateWith_tells (watches_spares hs hr) e (.inl he)
    ⟨by rw [henv], congrArg Env.vars henv⟩ hkeeping).2.2

/-! ### Guards -/

/-- The goals of conditions, some of which are spared. -/
theorem goals_spares (spared : String → Bool) {hs : List Hook} {cs : List Constr}
    (h : hs.mapM (fun h => mkGoal h.name h.term none) w = .ok cs w') :
    (∀ side, w'.env side = w.env side) ∧ (∀ c ∈ cs, c.Proper) ∧
      (∀ m, cs.all (·.holds m) = hs.all (·.term.holds m)) ∧
      ∀ m, cs.all (fun c => (c.spare spared).holds m) =
        (hs.filter (unspared spared)).all (·.term.holds m) := by
  induction hs generalizing w cs with
  | nil =>
    cases h
    exact ⟨fun _ => rfl, nofun, fun _ => rfl, fun _ => rfl⟩
  | cons k hs ih =>
    rw [List.mapM_cons] at h
    obtain ⟨c, w₁, hc, h₁⟩ := bind_ok h
    obtain ⟨rest, w₂, hrest, h₂⟩ := bind_ok h₁
    cases h₂
    obtain ⟨rfl, rfl⟩ := mkGoal_ok hc
    obtain ⟨henv, hproper, hholds, hspared⟩ := ih hrest
    refine ⟨fun side => (henv side).trans (by cases side <;> rfl), fun c hc => ?_, fun m => ?_, fun m => ?_⟩
    · rcases List.mem_cons.mp hc with rfl | hc
      · exact Constr.proper_goal w.nodes k.name k.term none
      · exact hproper c hc
    · rw [List.all_cons, List.all_cons, hholds, Constr.holds]
    · rw [List.all_cons, hspared, Constr.spare, Constr.holds, List.filter_cons, unspared]
      cases spared k.name <;> simp

/-- A constraint under conditions, some of which are spared. -/
theorem guard_spares (spared : String → Bool) {assumes verifies : List Hook} {post c : Constr}
    (h : guard assumes verifies post w = .ok c w') :
    (∀ side, w'.env side = w.env side) ∧ (post.Proper → c.Proper) ∧ ∀ m, (c.spare spared).holds m =
      (!assumes.all (·.term.holds m) ||
        ((verifies.filter (unspared spared)).all (·.term.holds m) && (post.spare spared).holds m)) := by
  unfold guard at h
  split at h
  · rename_i hnone
    obtain ⟨ha, hv⟩ := Bool.and_eq_true_iff.mp hnone
    cases h
    rw [List.isEmpty_iff.mp ha, List.isEmpty_iff.mp hv]
    exact ⟨fun _ => rfl, fun hpost => hpost, fun _ => rfl⟩
  · obtain ⟨hyps, w₁, hhyps, h₁⟩ := bind_ok h
    obtain ⟨goals, w₂, hgoals, h₂⟩ := bind_ok h₁
    obtain ⟨rfl, rfl⟩ := mkClause_ok h₂
    obtain ⟨henv₁, hproper₁, hholds₁, -⟩ := goals_spares spared hhyps
    obtain ⟨henv₂, hproper₂, -, hspared₂⟩ := goals_spares spared hgoals
    have hall (hpost : post.Proper) : ∀ c ∈ goals ++ [post], c.Proper := fun c hc =>
      (List.mem_append.mp hc).elim (hproper₂ c) fun hc => List.mem_singleton.mp hc ▸ hpost
    refine ⟨fun side => ?_, fun hpost => Constr.proper_clause hproper₁ (hall hpost), fun m => ?_⟩
    · exact (by cases side <;> rfl : _ = w₂.env side).trans ((henv₂ side).trans (henv₁ side))
    · rw [Constr.holds_spare_clause, hholds₁, List.all_append, hspared₂, List.all_cons, List.all_nil,
        Bool.and_true]

end Precond.Walk
