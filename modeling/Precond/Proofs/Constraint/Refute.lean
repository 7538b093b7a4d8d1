import Mathlib.Data.List.Forall2
import Precond.Constraint.Refute
import Precond.Proofs.Constraint.Meaning

/-! Failed goals. A model comes to goals of a constraint from left to right (`Constr.Visits`): it
takes its branches, enters the clauses whose hypotheses it satisfies, and is changed by
assignments. What is reported instead are terms of the model at the root, with all substitutions
carried out on them. Nothing else is reported, and some goal is just if the formula is false
(`Constr.refuted_exact`). With a goal its path is reported, which tells of each jump that is crossed on
the way how it is crossed last (`Constr.refuted_path`). -/

namespace Precond

/-- A goal that a model comes to, and the model as it is there. -/
structure Visit where
  name : String
  tid : Option String
  value : Term .bool
  path : List (String × Bool)
  model : Model

def Visit.fails (v : Visit) : Bool := !v.value.holds v.model

/-- The report of a goal, in terms of the model at the root. -/
structure Reports (m : Model) (v : Visit) (r : Refuted) : Prop where
  name : r.name = v.name
  tid : r.tid = v.tid
  path : r.path = v.path
  value : r.value.holds m = v.value.holds v.model

/-- The left sides are different constants. -/
structure Distinct (pairs : List (SomeTerm × SomeTerm)) : Prop where
  const : p ∈ pairs → ∃ n s, p.1 = ⟨s, .const n s⟩
  nodup : (pairs.map (·.1)).Nodup

theorem Distinct.simultaneous {pairs : List (SomeTerm × SomeTerm)} {swaps : List Swap}
    (h : Distinct pairs) (hs : Swap.ofPairs pairs = .ok swaps) : Simultaneous pairs where
  const := by
    obtain ⟨hconst, -⟩ := h
    induction pairs generalizing swaps with
    | nil => exact fun hp => nomatch hp
    | cons q pairs ih =>
      intro p hp
      rw [Swap.ofPairs] at hs
      obtain ⟨⟨s, old⟩, s', new⟩ := q
      by_cases hsort : s' = s
      · subst hsort
        rw [Swap.ofPair?_pair] at hs
        obtain ⟨ws, hws, -⟩ := bind_eq_ok hs
        rcases List.mem_cons.mp hp with rfl | hp
        · obtain ⟨n, _, heq⟩ := hconst List.mem_cons_self
          cases heq
          exact ⟨n, _, new, rfl⟩
        · exact ih hws (fun hp => hconst (List.mem_cons_of_mem _ hp)) hp
      · simp [Swap.ofPair?, hsort] at hs
  nodup := h.nodup

namespace Constr

mutual

/-- The goals that a model comes to, with the jumps on the way. -/
inductive Visits : Model → List (String × Bool) → Constr → List Visit → Prop
  | goal : Visits m path (goal n name value tid) [⟨name, tid, value, path, m⟩]
  | closed : ¬ AllSat m hyps → Visits m path (clause n hyps goals) []
  | entered : AllSat m hyps → VisitsAll m path goals vs → Visits m path (clause n hyps goals) vs
  | taken {cond : Term .bool} : cond.holds m = true → Visits m (setBranch path jump true) yes vs →
      Visits m path (branch n jump cond yes no) vs
  | passed {cond : Term .bool} : cond.holds m = false → Visits m (setBranch path jump false) no vs →
      Visits m path (branch n jump cond yes no) vs
  | assigned : m.Assigned pairs m' → Visits m' path body vs → Visits m path (subst n body pairs) vs

inductive VisitsAll : Model → List (String × Bool) → List Constr → List Visit → Prop
  | nil : VisitsAll m path [] []
  | cons : Visits m path c vs → VisitsAll m path cs ws → VisitsAll m path (c :: cs) (vs ++ ws)

end

/-- All substitutions of a constraint replace different constants. -/
def OnDistinct (c : Constr) : Prop := ∀ id body pairs, Part c (subst id body pairs) → Distinct pairs

variable {c d : Constr} {m : Model} {layers : Layers}

theorem Formal.part (h : c.Formal) (hd : Part c d) : d.Formal := by
  induction hd with
  | refl => exact h
  | tail _ he ih => exact ih.child he

/-- Where a constraint has a formula, its substitutions respect sorts. -/
theorem OnDistinct.proper (h : c.OnDistinct) (hf : c.Formal) : c.Proper := by
  intro id body pairs hpart
  obtain ⟨t, ht⟩ := hf.part hpart
  rw [plain] at ht
  obtain ⟨u, -, hu⟩ := bind_eq_ok ht
  obtain ⟨swaps, hs, -⟩ := bind_eq_ok hu
  exact (h id body pairs hpart).simultaneous hs

mutual

/-- A model comes to the same goals on all walks. -/
theorem Visits.unique {m : Model} {path : List (String × Bool)} {vs ws : List Visit} :
    (c : Constr) → c.Proper → Visits m path c vs → Visits m path c ws → vs = ws
  | goal .., _, .goal, .goal => rfl
  | clause .., _, .closed _, .closed _ => rfl
  | clause .., _, .closed hn, .entered hh _ => absurd hh hn
  | clause .., _, .entered hh _, .closed hn => absurd hh hn
  | clause _ _ goals, h, .entered _ hv, .entered _ hw =>
    VisitsAll.unique goals (fun _ hd => h.child (List.mem_append_right _ hd)) hv hw
  | branch _ _ _ yes _, h, .taken _ hv, .taken _ hw =>
    Visits.unique yes (h.child List.mem_cons_self) hv hw
  | branch .., _, .taken ht _, .passed hf _ => Bool.noConfusion (ht.symm.trans hf)
  | branch .., _, .passed hf _, .taken ht _ => Bool.noConfusion (ht.symm.trans hf)
  | branch _ _ _ _ no, h, .passed _ hv, .passed _ hw =>
    Visits.unique no (h.child (List.mem_cons_of_mem _ List.mem_cons_self)) hv hw
  | subst id body pairs, h, .assigned ha hv, .assigned hb hw => by
    have hsim := h id body pairs .refl
    have hm := (hsim.eq_update ha).trans (hsim.eq_update hb).symm
    subst hm
    exact Visits.unique body (h.child List.mem_cons_self) hv hw

theorem VisitsAll.unique {m : Model} {path : List (String × Bool)} {vs ws : List Visit} :
    (cs : List Constr) → (∀ c ∈ cs, c.Proper) → VisitsAll m path cs vs → VisitsAll m path cs ws →
      vs = ws
  | [], _, .nil, .nil => rfl
  | c :: cs, h, .cons hv hvs, .cons hw hws => by
    have hhead := Visits.unique c (h c List.mem_cons_self) hv hw
    have htail := VisitsAll.unique cs (fun d hd => h d (List.mem_cons_of_mem _ hd)) hvs hws
    rw [hhead, htail]

end

/-! ### Layers -/

/-- The model below the substitutions in force: the outermost one changes it first. -/
def beneath (m : Model) (layers : Layers) : Model :=
  layers.foldr (fun pairs m => m.update (swaps pairs)) m

/-- A term under all substitutions in force has the value in the model at the root that the term
has below them. -/
theorem underAll_ok (hl : ∀ pairs ∈ layers, Simultaneous pairs) (t : Term .bool) :
    ∃ t', underAll t layers = .ok t' ∧ ∀ m, t'.holds m = t.holds (beneath m layers) := by
  induction layers generalizing t with
  | nil => exact ⟨t, rfl, fun _ => rfl⟩
  | cons pairs layers ih =>
    obtain ⟨u, hu, um⟩ := (hl pairs List.mem_cons_self).coherent.under t
    obtain ⟨t', ht', tm⟩ := ih (fun ps hps => hl ps (List.mem_cons_of_mem _ hps)) u
    refine ⟨t', ?_, fun m => ?_⟩
    · rw [underAll, List.foldlM_cons, hu]
      exact ht'
    · rw [tm, um]
      rfl

/-! ### The walk -/

section

variable {K : Constr → Prop} {α β : Type} {memo : Memo}

theorem Agrees.lift (hm : memo.Sound K) {x : Except Fault α} {a : α} (hx : x = .ok a) :
    Agrees K ((liftM x : Memoized α).run memo) (.ok a) := by
  subst hx
  exact ⟨rfl, hm⟩

theorem Agrees.step {x : Memoized α} {a : α} {f : α → Memoized β} {b : β}
    (hx : Agrees K (x.run memo) (.ok a))
    (hf : ∀ memo', memo'.Sound K → Agrees K ((f a).run memo') (.ok b)) :
    Agrees K ((x >>= f).run memo) (.ok b) := by
  refine hx.bind (q := fun _ => .ok b) fun a' memo' ha hm' => ?_
  cases ha
  exact hf memo' hm'

/-- Hypotheses are tested in the model below the substitutions. -/
theorem Numbered.hypsHold (hK : Numbered K) (hl : ∀ pairs ∈ layers, Simultaneous pairs)
    {hyps : List Constr} (hh : ∀ c ∈ hyps, K c ∧ c.Proper) (hm : memo.Sound K) :
    Agrees K ((hypsHold m layers hyps).run memo) (.ok (allHold (beneath m layers) hyps)) := by
  induction hyps generalizing memo with
  | nil => exact .pure hm _
  | cons c cs ih =>
    obtain ⟨hKc, hpc⟩ := hh c List.mem_cons_self
    obtain ⟨t, ht, tm⟩ := Proper.plain c hpc
    obtain ⟨u, hu, um⟩ := underAll_ok hl t
    have hvalue : u.holds m = c.holds (beneath m layers) := (um m).trans (tm _)
    rw [Constr.hypsHold, allHold, ← hvalue]
    have hformula := hK.formula c hKc memo hm
    rw [ht] at hformula
    refine hformula.step fun memo hm => (Agrees.lift hm hu).step fun memo hm => ?_
    cases u.holds m with
    | false => exact .pure hm _
    | true => exact ih (fun d hd => hh d (List.mem_cons_of_mem _ hd)) hm

end

/-- A walk from a node below substitutions: it visits goals, reports those that fail, and some does
just if the constraint is false. -/
structure Explained (K : Constr → Prop) (m : Model) (walk : Memoized (List Refuted))
    (vs : List Visit) (rs : List Refuted) (truth : Bool) : Prop where
  runs : memo.Sound K → Agrees K (walk.run memo) (.ok rs)
  reports : List.Forall₂ (Reports m) (vs.filter Visit.fails) rs
  fails : ∀ r ∈ rs, r.value.holds m = false
  exact : truth = rs.isEmpty

mutual

theorem Numbered.refutedFrom {K : Constr → Prop} (hK : Numbered K) {m : Model} :
    (c : Constr) → K c → c.Proper → (layers : Layers) → (∀ pairs ∈ layers, Simultaneous pairs) →
    (path : List (String × Bool)) → ∃ vs rs, Visits (beneath m layers) path c vs ∧
      Explained K m (c.refutedFrom m layers path) vs rs (c.holds (beneath m layers))
  | goal id name value tid, _, _, layers, hl, path => by
    obtain ⟨t, ht, tm⟩ := underAll_ok hl value
    have hvalue := tm m
    refine ⟨_, if t.holds m then [] else [⟨name, tid, t, path⟩], .goal, fun hm => ?_, ?_, ?_, ?_⟩
    · rw [Constr.refutedFrom]
      exact (Agrees.lift hm ht).step fun memo hm => .pure hm _
    · cases hcase : t.holds m with
      | true => simp [Visit.fails, ← hvalue, hcase]
      | false =>
        simp only [List.filter_cons, Visit.fails, ← hvalue, hcase]
        exact .cons ⟨rfl, rfl, rfl, hvalue⟩ .nil
    · intro r hr
      cases hcase : t.holds m with
      | true => simp [hcase] at hr
      | false =>
        simp only [hcase, Bool.false_eq_true, if_false, List.mem_singleton] at hr
        rw [hr, hcase]
    · rw [Constr.holds, ← hvalue]
      cases t.holds m <;> rfl
  | clause id hyps goals, hc, hp, layers, hl, path => by
    have hhyps : ∀ d ∈ hyps, K d ∧ d.Proper := fun d hd =>
      ⟨hK.children hc (List.mem_append_left _ hd), hp.child (List.mem_append_left _ hd)⟩
    have hgoals : ∀ d ∈ goals, K d ∧ d.Proper := fun d hd =>
      ⟨hK.children hc (List.mem_append_right _ hd), hp.child (List.mem_append_right _ hd)⟩
    have hsat := Proper.allSat_iff hyps (fun d hd => (hhyps d hd).2) (beneath m layers)
    cases hcase : allHold (beneath m layers) hyps with
    | false =>
      refine ⟨[], [], .closed fun h => ?_, fun hm => ?_, .nil, by simp, ?_⟩
      · rw [hsat, hcase] at h
        cases h
      · have htest := hK.hypsHold (m := m) hl hhyps hm
        rw [hcase] at htest
        rw [Constr.refutedFrom]
        exact htest.step fun memo hm => .pure hm _
      · simp [Constr.holds, hcase]
    | true =>
      obtain ⟨vs, rs, hv, he⟩ := hK.refutedAmong (m := m) goals hgoals layers hl path
      refine ⟨vs, rs, .entered (hsat.mpr hcase) hv, fun hm => ?_, he.reports, he.fails, ?_⟩
      · have htest := hK.hypsHold (m := m) hl hhyps hm
        rw [hcase] at htest
        rw [Constr.refutedFrom]
        exact htest.step fun memo hm => he.runs hm
      · rw [Constr.holds, hcase, he.exact]
        rfl
  | branch id jump cond yes no, hc, hp, layers, hl, path => by
    obtain ⟨t, ht, tm⟩ := underAll_ok hl cond
    have hvalue := tm m
    cases hcase : t.holds m with
    | true =>
      rw [hcase] at hvalue
      obtain ⟨vs, rs, hv, he⟩ := hK.refutedFrom (m := m) yes (hK.children hc List.mem_cons_self)
        (hp.child List.mem_cons_self) layers hl (setBranch path jump true)
      refine ⟨vs, rs, .taken hvalue.symm hv, fun hm => ?_, he.reports, he.fails, ?_⟩
      · rw [Constr.refutedFrom]
        refine (Agrees.lift hm ht).step fun memo hm => ?_
        rw [if_pos hcase]
        exact he.runs hm
      · rw [Constr.holds, ← hvalue, ← he.exact]
        rfl
    | false =>
      rw [hcase] at hvalue
      have hno : no ∈ (branch id jump cond yes no).children :=
        List.mem_cons_of_mem _ List.mem_cons_self
      obtain ⟨vs, rs, hv, he⟩ := hK.refutedFrom (m := m) no (hK.children hc hno) (hp.child hno)
        layers hl (setBranch path jump false)
      refine ⟨vs, rs, .passed hvalue.symm hv, fun hm => ?_, he.reports, he.fails, ?_⟩
      · rw [Constr.refutedFrom]
        refine (Agrees.lift hm ht).step fun memo hm => ?_
        rw [hcase]
        exact he.runs hm
      · rw [Constr.holds, ← hvalue, ← he.exact]
        rfl
  | subst id body pairs, hc, hp, layers, hl, path => by
    have hsim := hp id body pairs .refl
    have hlayers : ∀ ps ∈ pairs :: layers, Simultaneous ps := by
      intro ps hps
      rcases List.mem_cons.mp hps with rfl | hps
      · exact hsim
      · exact hl ps hps
    obtain ⟨vs, rs, hv, he⟩ := hK.refutedFrom (m := m) body (hK.children hc List.mem_cons_self)
      (hp.child List.mem_cons_self) (pairs :: layers) hlayers path
    refine ⟨vs, rs, .assigned (hsim.assigned_update _) hv, fun hm => ?_, he.reports,
      he.fails, he.exact⟩
    rw [Constr.refutedFrom]
    exact he.runs hm

theorem Numbered.refutedAmong {K : Constr → Prop} (hK : Numbered K) {m : Model} :
    (cs : List Constr) → (∀ c ∈ cs, K c ∧ c.Proper) → (layers : Layers) →
    (∀ pairs ∈ layers, Simultaneous pairs) → (path : List (String × Bool)) →
    ∃ vs rs, VisitsAll (beneath m layers) path cs vs ∧
      Explained K m (refutedAmong m layers path cs) vs rs (allHold (beneath m layers) cs)
  | [], _, _, _, _ => ⟨[], [], .nil, fun hm => .pure hm _, .nil, by simp, rfl⟩
  | c :: cs, h, layers, hl, path => by
    obtain ⟨hKc, hpc⟩ := h c List.mem_cons_self
    obtain ⟨vs, rs, hv, he⟩ := hK.refutedFrom (m := m) c hKc hpc layers hl path
    obtain ⟨vs', rs', hv', he'⟩ := hK.refutedAmong (m := m) cs
      (fun d hd => h d (List.mem_cons_of_mem _ hd)) layers hl path
    refine ⟨vs ++ vs', rs ++ rs', .cons hv hv', fun hm => ?_, ?_, ?_, ?_⟩
    · rw [Constr.refutedAmong]
      exact (he.runs hm).step fun memo hm => (he'.runs hm).step fun memo hm => .pure hm _
    · rw [List.filter_append]
      exact List.rel_append he.reports he'.reports
    · intro r hr
      rcases List.mem_append.mp hr with hr | hr
      · exact he.fails r hr
      · exact he'.fails r hr
    · rw [allHold, he.exact, he'.exact]
      cases rs <;> simp

end

/-- The reported goals are, in order, those that the model comes to and that fail there. Each is
reported by a term that is false in the model at the root, and there is one just if the formula of
the constraint is false. -/
theorem refuted_exact {t : Term .bool} (hc : Numbered (Part c)) (hd : c.OnDistinct)
    (ht : c.toFormula = .ok t) (m : Model) :
    ∃ vs rs, Visits m [] c vs ∧ (∀ ws, Visits m [] c ws → ws = vs) ∧ c.refuted m = .ok rs ∧
      List.Forall₂ (Reports m) (vs.filter Visit.fails) rs ∧ (∀ r ∈ rs, r.value.holds m = false) ∧
      (rs ≠ [] ↔ t.holds m = false) := by
  have hplain : c.plain = .ok t := (hc.toFormula_eq .refl).symm.trans ht
  have hp : c.Proper := hd.proper ⟨t, hplain⟩
  obtain ⟨vs, rs, hv, he⟩ := hc.refutedFrom (m := m) c .refl hp [] (by simp) []
  have hruns := he.runs (Memo.sound_empty _)
  have htruth : t.holds m = rs.isEmpty := by
    obtain ⟨u, hu, um⟩ := Proper.plain c hp
    cases hplain.symm.trans hu
    exact (um m).trans he.exact
  refine ⟨vs, rs, hv, fun ws hw => Visits.unique c hp hw hv, ?_, he.reports, he.fails, ?_⟩
  · rw [refuted, StateT.run']
    cases hr : (c.refutedFrom m [] []).run {} with
    | ok r =>
      rw [hr] at hruns
      cases hruns.1
      exact congrArg (Functor.map _) hr
    | error f =>
      rw [hr] at hruns
      cases hruns
  · rw [htruth]
    cases rs <;> simp

/-! In a model where all words are zero, the walk takes the first branch, enters the clause below
it, and comes to one goal twice, each time below other substitutions. -/

def zeros : Model := ⟨fun _ _ => default, fun _ dom _ => Fn.const dom default⟩

def guarded : Constr :=
  branch 4 "%00000005" (.eq (.const "R0" (.bv 8)) (.const "R1" (.bv 8))) overlapping shared

theorem guarded_parts : ∀ d ∈ [guarded, overlapping, copied, exchanged, shared], ∀ e ∈ d.children,
    e ∈ [guarded, overlapping, copied, exchanged, shared] := by
  simp [children, guarded, overlapping, copied, exchanged, shared]

theorem guarded_numbered : Numbered (Part guarded) :=
  .of_mem guarded_parts List.mem_cons_self (by decide)

theorem guarded_distinct : guarded.OnDistinct := by
  intro n body pairs hpart
  have hmem := hpart.mem guarded_parts List.mem_cons_self
  simp only [List.mem_cons, List.not_mem_nil, or_false] at hmem
  rcases hmem with h | h | h | h | h <;> cases h
  · exact ⟨by simp, List.nodup_singleton _⟩
  · exact ⟨by simp, by simp⟩

theorem guarded_formula : ∃ t, guarded.toFormula = .ok t :=
  ⟨_, (guarded_numbered.toFormula_eq .refl).trans rfl⟩

theorem refuted_exact_guarded :
    Numbered (Part guarded) ∧ guarded.OnDistinct ∧ ∃ t, guarded.toFormula = .ok t ∧
      ∃ vs rs, Visits zeros [] guarded vs ∧ (∀ ws, Visits zeros [] guarded ws → ws = vs) ∧
        guarded.refuted zeros = .ok rs ∧
        List.Forall₂ (Reports zeros) (vs.filter Visit.fails) rs ∧
        (∀ r ∈ rs, r.value.holds zeros = false) ∧ (rs ≠ [] ↔ t.holds zeros = false) := by
  obtain ⟨t, ht⟩ := guarded_formula
  exact ⟨guarded_numbered, guarded_distinct, t, ht,
    refuted_exact guarded_numbered guarded_distinct ht zeros⟩

/-! ### Paths

A path keeps one branch for each jump: that of the last crossing. -/

/-- A jump that is crossed, and whether it is taken there. -/
abbrev Crossing := String × Bool

/-- No jump is crossed both ways. -/
def Steady (way : List Crossing) : Prop := ∀ x ∈ way, ∀ y ∈ way, x.1 = y.1 → x.2 = y.2

theorem lookup_filter_ne {j jump : String} (h : j ≠ jump) (path : List Crossing) :
    (path.filter (·.1 ≠ jump)).lookup j = path.lookup j := by
  induction path with
  | nil => rfl
  | cons x path ih =>
    obtain ⟨i, b⟩ := x
    by_cases hi : i = jump
    · rw [List.filter_cons_of_neg (by simpa using hi), List.lookup_cons, ih, beq_false_of_ne (hi ▸ h)]
    · rw [List.filter_cons_of_pos (by simpa using hi), List.lookup_cons, List.lookup_cons, ih]

/-- The branch of a jump on a path is what has been set last. -/
theorem lookup_setBranch (path : List Crossing) (jump : String) (taken : Bool) (j : String) :
    (setBranch path jump taken).lookup j = if j = jump then some taken else path.lookup j := by
  rw [setBranch, List.lookup_cons]
  by_cases h : j = jump
  · rw [if_pos h, h, beq_self_eq_true]
  · rw [if_neg h, beq_false_of_ne h]
    exact lookup_filter_ne h path

/-- Branches that are set one after the other. -/
theorem lookup_setBranches (way path : List Crossing) (jump : String) :
    (way.foldl (fun p x => setBranch p x.1 x.2) path).lookup jump =
      (way.reverse ++ path).lookup jump := by
  induction way generalizing path with
  | nil => rfl
  | cons x way ih =>
    obtain ⟨j, b⟩ := x
    rw [List.foldl_cons, ih, List.reverse_cons, List.append_assoc, List.lookup_append,
      List.lookup_append, lookup_setBranch, List.singleton_append, List.lookup_cons]
    by_cases h : jump = j
    · rw [if_pos h, h, beq_self_eq_true]
    · rw [if_neg h, beq_false_of_ne h]

theorem Steady.lookup {way xs : List Crossing} {x : Crossing} (h : Steady way)
    (hxs : ∀ y ∈ xs, y ∈ way) (hx : x ∈ xs) : xs.lookup x.1 = some x.2 := by
  induction xs with
  | nil => cases hx
  | cons y xs ih =>
    rw [List.lookup_cons]
    by_cases hxy : x.1 = y.1
    · rw [hxy, beq_self_eq_true, h x (hxs x hx) y (hxs y List.mem_cons_self) hxy]
    · rw [beq_false_of_ne hxy]
      refine ih (fun z hz => hxs z (List.mem_cons_of_mem y hz)) ?_
      exact (List.mem_cons.mp hx).resolve_left fun heq => hxy (heq ▸ rfl)

/-- The last crossings tell of all of them just if no jump is crossed both ways. -/
theorem steady_iff (way : List Crossing) :
    (∀ x ∈ way, way.reverse.lookup x.1 = some x.2) ↔ Steady way := by
  refine ⟨fun h x hx y hy hxy => ?_, fun h x hx => ?_⟩
  · have hlookup := h x hx
    rw [hxy, h y hy] at hlookup
    exact (Option.some.inj hlookup).symm
  · exact h.lookup (fun _ => List.mem_reverse.mp) (List.mem_reverse.mpr hx)

/-- The way to a failed goal from a node below substitutions: the jumps that are crossed, in order, each
with the branch that the model takes there. -/
inductive Leads (m : Model) : Layers → Constr → List Crossing → Refuted → Prop
  | goal : underAll value ls = .ok r.value → r.value.holds m = false →
      Leads m ls (goal n r.name value r.tid) [] r
  | entered : (hypsHold m ls hyps).run memo = .ok (true, memo') → k ∈ goals → Leads m ls k way r →
      Leads m ls (clause n hyps goals) way r
  | taken {cond : Term .bool} : underAll cond ls = .ok t → t.holds m = true → Leads m ls yes way r →
      Leads m ls (branch n jump cond yes no) ((jump, true) :: way) r
  | passed {cond : Term .bool} : underAll cond ls = .ok t → t.holds m = false → Leads m ls no way r →
      Leads m ls (branch n jump cond yes no) ((jump, false) :: way) r
  | assigned : Leads m (pairs :: ls) body way r → Leads m ls (subst n body pairs) way r

/-- Some branch of the constraint is at the jump. -/
def BranchesAt (c : Constr) (jump : String) : Prop := ∃ n cond yes no, Part c (branch n jump cond yes no)

/-- No branch is below another one at the same jump. -/
def Unrepeated (c : Constr) : Prop := ∀ n jump cond yes no, Part c (branch n jump cond yes no) →
  ¬ yes.BranchesAt jump ∧ ¬ no.BranchesAt jump

section

variable {r : Refuted} {way : List Crossing}

theorem BranchesAt.child {jump : String} (hd : d ∈ c.children) (h : d.BranchesAt jump) :
    c.BranchesAt jump :=
  let ⟨n, cond, yes, no, hp⟩ := h
  ⟨n, cond, yes, no, .head hd hp⟩

theorem Unrepeated.child (h : c.Unrepeated) (hd : d ∈ c.children) : d.Unrepeated :=
  fun n jump cond yes no hp => h n jump cond yes no (.head hd hp)

/-- Jumps are crossed at branches. -/
theorem Leads.branchesAt (h : Leads m layers c way r) {x : Crossing} (hx : x ∈ way) :
    c.BranchesAt x.1 := by
  induction h with
  | goal => cases hx
  | entered _ hc _ ih => exact (ih hx).child (List.mem_append_right _ hc)
  | taken _ _ _ ih =>
    rcases List.mem_cons.mp hx with rfl | hx
    · exact ⟨_, _, _, _, .refl⟩
    · exact (ih hx).child List.mem_cons_self
  | passed _ _ _ ih =>
    rcases List.mem_cons.mp hx with rfl | hx
    · exact ⟨_, _, _, _, .refl⟩
    · exact (ih hx).child (List.mem_cons_of_mem _ List.mem_cons_self)
  | assigned _ ih => exact (ih hx).child List.mem_cons_self

theorem Steady.cons {x : Crossing} (h : Steady way) (hx : ∀ y ∈ way, y.1 ≠ x.1) : Steady (x :: way) := by
  intro y hy z hz hyz
  rcases List.mem_cons.mp hy with hyx | hy' <;> rcases List.mem_cons.mp hz with hzx | hz'
  · rw [hyx, hzx]
  · exact absurd (hyx ▸ hyz.symm) (hx z hz')
  · exact absurd (hzx ▸ hyz) (hx y hy')
  · exact h y hy' z hz' hyz

theorem Leads.steady (h : Leads m layers c way r) (hc : c.Unrepeated) : Steady way := by
  induction h with
  | goal => exact nofun
  | entered _ hd _ ih => exact ih (hc.child (List.mem_append_right _ hd))
  | taken _ _ hyes ih =>
    refine (ih (hc.child List.mem_cons_self)).cons fun y hy heq => ?_
    have hbelow := hyes.branchesAt hy
    rw [heq] at hbelow
    exact (hc _ _ _ _ _ .refl).1 hbelow
  | passed _ _ hno ih =>
    refine (ih (hc.child (List.mem_cons_of_mem _ List.mem_cons_self))).cons fun y hy heq => ?_
    have hbelow := hno.branchesAt hy
    rw [heq] at hbelow
    exact (hc _ _ _ _ _ .refl).2 hbelow
  | assigned _ ih => exact ih (hc.child List.mem_cons_self)

theorem bind_run_ok {α β : Type} {x : Memoized α} {f : α → Memoized β} {memo : Memo}
    {p : β × Memo} (h : (x >>= f).run memo = .ok p) :
    ∃ a memo', x.run memo = .ok (a, memo') ∧ (f a).run memo' = .ok p := by
  rw [StateT.run_bind] at h
  obtain ⟨⟨a, memo'⟩, ha, hf⟩ := bind_eq_ok h
  exact ⟨a, memo', ha, hf⟩

theorem lift_run_ok {α : Type} {x : Except Fault α} {a : α} {memo memo' : Memo}
    (h : (liftM x : Memoized α).run memo = .ok (a, memo')) : x = .ok a := by
  cases x with
  | ok b =>
    cases h
    rfl
  | error f => cases h

mutual

/-- A goal is reported with the branches of the jumps on a way to it, set one after the other. -/
theorem leads_of_refutedFrom : (c : Constr) → {layers : Layers} → {path : List Crossing} →
    {memo : Memo} → {p : List Refuted × Memo} → (c.refutedFrom m layers path).run memo = .ok p →
    r ∈ p.1 →
    ∃ way, Leads m layers c way r ∧ r.path = way.foldl (fun p x => setBranch p x.1 x.2) path
  | goal _ name value tid, layers, path, memo, p, h, hr => by
    rw [refutedFrom] at h
    obtain ⟨t, memo₁, ht, h₁⟩ := bind_run_ok h
    cases h₁
    dsimp only at hr
    split at hr
    · cases hr
    · rename_i hfalse
      cases List.mem_singleton.mp hr
      have hfails := eq_false_of_ne_true hfalse
      exact ⟨[], .goal (r := ⟨name, tid, t, path⟩) (lift_run_ok ht) hfails, rfl⟩
  | clause _ hyps goals, layers, path, memo, p, h, hr => by
    rw [refutedFrom] at h
    obtain ⟨b, memo₁, hb, h₁⟩ := bind_run_ok h
    cases b with
    | false =>
      cases h₁
      cases hr
    | true =>
      obtain ⟨c, hc, way, hway, hpath⟩ := leads_of_refutedAmong goals h₁ hr
      exact ⟨way, .entered hb hc hway, hpath⟩
  | branch _ jump cond yes no, layers, path, memo, p, h, hr => by
    rw [refutedFrom] at h
    obtain ⟨t, memo₁, ht, h₁⟩ := bind_run_ok h
    cases hcase : t.holds m with
    | true =>
      rw [if_pos hcase] at h₁
      obtain ⟨way, hway, hpath⟩ := leads_of_refutedFrom yes h₁ hr
      exact ⟨_, .taken (lift_run_ok ht) hcase hway, hpath⟩
    | false =>
      rw [if_neg (by rw [hcase]; exact Bool.false_ne_true)] at h₁
      obtain ⟨way, hway, hpath⟩ := leads_of_refutedFrom no h₁ hr
      exact ⟨_, .passed (lift_run_ok ht) hcase hway, hpath⟩
  | subst _ body pairs, layers, path, memo, p, h, hr => by
    rw [refutedFrom] at h
    obtain ⟨way, hway, hpath⟩ := leads_of_refutedFrom body h hr
    exact ⟨way, .assigned hway, hpath⟩

theorem leads_of_refutedAmong : (cs : List Constr) → {layers : Layers} → {path : List Crossing} →
    {memo : Memo} → {p : List Refuted × Memo} → (refutedAmong m layers path cs).run memo = .ok p →
    r ∈ p.1 →
    ∃ c ∈ cs, ∃ way, Leads m layers c way r ∧
      r.path = way.foldl (fun p x => setBranch p x.1 x.2) path
  | [], _, _, _, _, h, hr => by
    cases h
    cases hr
  | c :: cs, layers, path, memo, p, h, hr => by
    rw [refutedAmong] at h
    obtain ⟨rs, memo₁, hrs, h₁⟩ := bind_run_ok h
    obtain ⟨rest, memo₂, hrest, h₂⟩ := bind_run_ok h₁
    cases h₂
    rcases List.mem_append.mp hr with hr | hr
    · exact ⟨c, List.mem_cons_self, leads_of_refutedFrom c hrs hr⟩
    · obtain ⟨d, hd, hway⟩ := leads_of_refutedAmong cs hrest hr
      exact ⟨d, List.mem_cons_of_mem c hd, hway⟩

end

/-- The path of a reported goal gives for each jump the branch that the model takes where it crosses the
jump last on its way to the goal, and nothing for other jumps. So it tells of all crossings on the way
just if no jump is crossed both ways, as where no branch is below another one at the same jump. -/
theorem refuted_path {rs : List Refuted} (h : c.refuted m = .ok rs) (hr : r ∈ rs) :
    ∃ way, Leads m [] c way r ∧ (∀ jump, r.path.lookup jump = way.reverse.lookup jump) ∧
      ((∀ x ∈ way, r.path.lookup x.1 = some x.2) ↔ Steady way) ∧ (c.Unrepeated → Steady way) := by
  obtain ⟨p, hp, rfl⟩ : ∃ p, (c.refutedFrom m [] []).run {} = .ok p ∧ p.1 = rs := by
    change (·.1) <$> (c.refutedFrom m [] []).run {} = .ok rs at h
    cases hp : (c.refutedFrom m [] []).run {} with
    | ok p =>
      rw [hp] at h
      exact ⟨p, rfl, Except.ok.inj h⟩
    | error f =>
      rw [hp] at h
      cases h
  obtain ⟨way, hway, hpath⟩ := leads_of_refutedFrom c hp hr
  have hlookup (jump : String) : r.path.lookup jump = way.reverse.lookup jump := by
    rw [hpath, lookup_setBranches, List.append_nil]
  refine ⟨way, hway, hlookup, ?_, hway.steady⟩
  rw [← steady_iff]
  exact forall₂_congr fun x _ => by rw [hlookup]

end

/-! A word is counted down, and each time it is asked whether it is zero. Where it is two, the jump is
taken first and then it is not; the report tells of the second time only. -/

def counted : Term (.bv 32) := .const "R0" (.bv 32)

def lowered : List (SomeTerm × SomeTerm) := [(⟨_, counted⟩, ⟨_, .bin .sub counted (.op (.bvLit 1#32))⟩)]

def unspent : Term .bool := (Term.ofTruth (.ne counted (.op (.bvLit 0#32)))).nonZero

/-- The constraint `spent` has to hold when the word is zero. -/
def rounds (spent : Constr) : Constr :=
  subst 5 (branch 4 "%back" unspent
    (subst 3 (branch 2 "%back" unspent (goal 1 "true" (.truth true) none) spent) lowered) spent) lowered

def one : Constr := goal 0 "one" (.eq counted (.numeral 32 1)) none

def two : Model := zeros.update [⟨counted, .numeral 32 2⟩]

/-- The goal below both rounds, in terms of the model at the root. -/
def unmet : Refuted where
  name := "one"
  tid := none
  value := .eq (.bin .sub (.bin .sub counted (.op (.bvLit 1#32))) (.op (.bvLit 1#32))) (.numeral 32 1)
  path := [("%back", false)]

theorem rounds_refuted : (rounds one).refuted two = .ok [unmet] := rfl

theorem rounds_crossed : Leads two [] (rounds one) [("%back", true), ("%back", false)] unmet :=
  .assigned (.taken rfl rfl (.assigned (.passed rfl rfl (.goal (r := unmet) rfl rfl))))

theorem refuted_path_rounds : (rounds one).refuted two = .ok [unmet] ∧ unmet ∈ [unmet] ∧
    ∃ way, Leads two [] (rounds one) way unmet ∧
      (∀ jump, unmet.path.lookup jump = way.reverse.lookup jump) ∧
      ((∀ x ∈ way, unmet.path.lookup x.1 = some x.2) ↔ Steady way) ∧
      ((rounds one).Unrepeated → Steady way) :=
  ⟨rounds_refuted, List.mem_singleton_self _, refuted_path rounds_refuted (List.mem_singleton_self _)⟩

end Constr

end Precond
