import Precond.Proofs.Run.Agreement
import Precond.Proofs.Solve.Session

/-! Going through the values of a term by excluding them one after the other. Among candidates this
comes to an end, and what is found on the way are the values of the term in the candidates that
answer the check, each of them once: `Solver.enumerates_exactly`. -/

namespace Precond

/-- The verdict where a model is found. -/
def Verdict.hit (refute : Bool) : Verdict := if refute then .refuted else .sat

/-- The verdict where there is no model. -/
def Verdict.miss (refute : Bool) : Verdict := if refute then .proved else .unsat

@[simp] theorem Spine.eval_ofValue (m : Model) (s : TSort) (v : s.Val) :
    (Term.ofValue s v).eval m = v := by
  cases s <;> rfl

namespace Solver

/-- From a verdict on, the value of a term in the model found last is excluded for as long as a model
is found: the values that are excluded, and the last verdict. -/
inductive Enumerates (how : Search) (t : SomeTerm) (c : Constr) (refute : Bool) :
    Verdict → Solver → List Value → Verdict → Prop
  | done : v ≠ .hit refute → Enumerates how t c refute v s [] v
  | again : v = .hit refute → s.found = some last →
      Solver.exclude how t c refute s = .ok (v', o) s' →
      Enumerates how t c refute v' s' values final →
      Enumerates how t c refute v s (t.value last.model :: values) final

variable {how : Search} {ms : List Model} {t : SomeTerm} {c : Constr} {refute : Bool} {s : Solver}
  {v final final' : Verdict} {F q : Term .bool} {live : List (Term .bool)} {fs : List Guarded}

theorem Enumerates.unique {values values' : List Value}
    (h : Enumerates how t c refute v s values final)
    (h' : Enumerates how t c refute v s values' final') : values = values' ∧ final = final' := by
  induction h generalizing values' with
  | done hv =>
    cases h' with
    | done => exact ⟨rfl, rfl⟩
    | again hv' => exact absurd hv' hv
  | again hv hlast hex _ ih =>
    cases h' with
    | done hv' => exact absurd hv hv'
    | again _ hlast' hex' h' =>
      cases hlast.symm.trans hlast'
      cases hex.symm.trans hex'
      obtain ⟨rfl, rfl⟩ := ih h'
      exact ⟨rfl, rfl⟩

/-! ### One question, again and again -/

/-- What is kept under guards is one formula, and the rest is what has been ruled out. -/
structure Repeats (q : Term .bool) (fs : List Guarded) (live : List (Term .bool)) : Prop where
  guarded : ∀ g ∈ fs, g.guard.isSome → g.formula = q
  ruled : ∀ g ∈ fs, g.guard = none → g.formula ∈ live
  kept : ∀ p ∈ live, ⟨none, p⟩ ∈ fs
  unguarded : ∀ p ∈ live, p.Unguarded

namespace Repeats

theorem nil : Repeats q [] [] := ⟨nofun, nofun, nofun, nofun⟩

/-- The question is asked once more. -/
theorem ask (h : Repeats q fs live) (k : Nat) : Repeats q (fs ++ [⟨some k, q⟩]) live where
  guarded := List.forall_mem_append.mpr ⟨h.guarded, List.forall_mem_singleton.mpr fun _ => rfl⟩
  ruled := List.forall_mem_append.mpr ⟨h.ruled, List.forall_mem_singleton.mpr nofun⟩
  kept p hp := List.mem_append_left _ (h.kept p hp)
  unguarded := h.unguarded

theorem rule {p : Term .bool} (h : Repeats q fs live) (hp : p.Unguarded) :
    Repeats q (fs ++ [⟨none, p⟩]) (live ++ [p]) where
  guarded := List.forall_mem_append.mpr ⟨h.guarded, List.forall_mem_singleton.mpr nofun⟩
  ruled := List.forall_mem_append.mpr ⟨fun g hg hn => List.mem_append_left _ (h.ruled g hg hn),
    List.forall_mem_singleton.mpr fun _ => List.mem_append_right _ (List.mem_singleton_self p)⟩
  kept := List.forall_mem_append.mpr ⟨fun p' hp' => List.mem_append_left _ (h.kept p' hp'),
    List.forall_mem_singleton.mpr (List.mem_append_right _ (List.mem_singleton_self _))⟩
  unguarded := List.forall_mem_append.mpr ⟨h.unguarded, List.forall_mem_singleton.mpr hp⟩

/-- A model that opens a guard satisfies what has been ruled out and the question. Other guards may be
open in it as well: the same question is under them. -/
theorem satisfies_iff (h : Repeats q fs live) (hq : q.Unguarded) (m : Model) (k : Nat) :
    Search.satisfies (fs ++ [⟨some k, q⟩]) (Search.opened m k) = true ↔
      (∀ p ∈ live, p.holds m = true) ∧ q.holds m = true := by
  have hsame {p : Term .bool} (hp : p.Unguarded) : p.holds (Search.opened m k) = p.holds m :=
    hp.eval_opened m k
  have hguard (n : Nat) : (⟨some n, q⟩ : Guarded).toTerm.holds (Search.opened m k) =
      (!(Spine.const (guardName n) .bool).holds (Search.opened m k) || q.holds m) := by
    rw [Guarded.toTerm, Spine.holds_implies, hsame hq]
  rw [Search.satisfies, List.all_eq_true]
  constructor
  · intro hall
    refine ⟨fun p hp => ?_, ?_⟩
    · rw [← hsame (h.unguarded p hp)]
      exact hall _ (List.mem_append_left _ (h.kept p hp))
    · have hopen : (Spine.const (guardName k) .bool).holds (Search.opened m k) = true :=
        Search.opened_self m k
      have hlast := hall _ (List.mem_append_right _ (List.mem_singleton_self _))
      rwa [hguard, hopen] at hlast
  · rintro ⟨hlive, hholds⟩ ⟨guard, p⟩ hg
    cases guard with
    | none =>
      have hp : p ∈ live := by
        rcases List.mem_append.mp hg with hg | hg
        · exact h.ruled _ hg rfl
        · cases List.mem_singleton.mp hg
      exact (hsame (h.unguarded p hp)).trans (hlive p hp)
    | some n =>
      obtain rfl : p = q := by
        rcases List.mem_append.mp hg with hg | hg
        · exact h.guarded _ hg rfl
        · cases List.mem_singleton.mp hg
          rfl
      rw [hguard, hholds, Bool.or_true]

end Repeats

/-! ### Candidates -/

theorem firstOf_eq_none {k i : Nat} (h : Search.firstOf fs k i ms = none) :
    ∀ m ∈ ms, Search.satisfies fs (Search.opened m k) = false := by
  induction ms generalizing i with
  | nil => nofun
  | cons m ms ih =>
    rw [Search.firstOf] at h
    split at h
    · cases h
    · rename_i hm
      exact List.forall_mem_cons.mpr ⟨Bool.eq_false_iff.mpr hm, ih h⟩

/-- The candidates that answer a question and in which nothing is ruled out. -/
def remaining (ms : List Model) (q : Term .bool) (live : List (Term .bool)) : List Model :=
  ms.filter fun m => live.all (·.holds m) && q.holds m

theorem mem_remaining {m : Model} : m ∈ remaining ms q live ↔
    m ∈ ms ∧ (∀ p ∈ live, p.holds m = true) ∧ q.holds m = true := by
  rw [remaining, List.mem_filter, Bool.and_eq_true, List.all_eq_true]

/-- To rule out a value leaves the candidates in which the term has another one. -/
theorem mem_remaining_differs {m m' : Model} : m' ∈ remaining ms q (live ++ [differs t m]) ↔
    m' ∈ remaining ms q live ∧ ¬ (t.value m).Agrees (t.value m') := by
  have hholds : (differs t m).holds m' = true ↔ ¬ (t.value m).Agrees (t.value m') := by
    have hne : (differs t m).holds m' = !t.1.agree (t.2.eval m) (t.2.eval m') :=
      (Spine.holds_ne ..).trans
        (congrArg (fun x => !t.1.agree x (t.2.eval m')) (Spine.eval_ofValue m' t.1 _))
    rw [hne, Bool.not_eq_true']
    constructor
    · intro h hag
      cases hag with
      | mk hag => exact absurd (h.symm.trans hag) (by decide)
    · exact fun h => Bool.eq_false_iff.mpr fun hag => h (.mk hag)
  rw [mem_remaining, mem_remaining, List.forall_mem_append, List.forall_mem_singleton, hholds]
  tauto

/-- Values of a term in some models: each once, and all of them. -/
structure Lists (t : SomeTerm) (values : List Value) (models : List Model) : Prop where
  distinct : values.Pairwise fun x y => ¬ x.Agrees y
  sound : ∀ x ∈ values, ∃ m ∈ models, x = t.value m
  complete : ∀ m ∈ models, ∃ x ∈ values, (t.value m).Agrees x

/-- The value in one model comes before the values in those in which there is another one. -/
theorem Lists.cons {m : Model} {values : List Value} (hm : m ∈ remaining ms q live)
    (h : Lists t values (remaining ms q (live ++ [differs t m]))) :
    Lists t (t.value m :: values) (remaining ms q live) where
  distinct := by
    refine List.pairwise_cons.mpr ⟨fun x hx => ?_, h.distinct⟩
    obtain ⟨m', hm', rfl⟩ := h.sound x hx
    exact (mem_remaining_differs.mp hm').2
  sound := by
    refine List.forall_mem_cons.mpr ⟨⟨m, hm, rfl⟩, fun x hx => ?_⟩
    obtain ⟨m', hm', rfl⟩ := h.sound x hx
    exact ⟨m', (mem_remaining_differs.mp hm').1, rfl⟩
  complete m' hm' := by
    by_cases hag : (t.value m).Agrees (t.value m')
    · exact ⟨_, List.mem_cons_self, hag.symm⟩
    · obtain ⟨x, hx, hxm⟩ := h.complete m' (mem_remaining_differs.mpr ⟨hm', hag⟩)
      exact ⟨x, List.mem_cons_of_mem _ hx, hxm⟩

theorem length_remaining_lt {m : Model} (hm : m ∈ remaining ms q live) :
    (remaining ms q (live ++ [differs t m])).length < (remaining ms q live).length := by
  have hsub : remaining ms q (live ++ [differs t m]) =
      (remaining ms q live).filter fun m' => (differs t m).holds m' := by
    rw [remaining, remaining, List.filter_filter]
    refine List.filter_congr fun m' _ => ?_
    rw [List.all_append, List.all_cons, List.all_nil, Bool.and_true, Bool.and_right_comm,
      Bool.and_comm]
  rw [hsub]
  refine List.length_filter_lt_length_iff_exists.mpr ⟨m, hm, fun hholds => ?_⟩
  have hout : m ∈ remaining ms q (live ++ [differs t m]) := by
    rw [hsub]
    exact List.mem_filter.mpr ⟨hm, hholds⟩
  exact (mem_remaining_differs.mp hout).2 (.refl _)

/-- From any stage on, the values in the remaining candidates are enumerated. The induction is on
the number of these candidates. -/
theorem enumerates_remaining (hF : c.toFormula = .ok F) (hc : F.Unguarded) (ht : t.2.Unguarded)
    (ms : List Model) (refute : Bool) (hs : Repeats (query refute F) s.asserted live) :
    ∃ v o s' values, check (.candidates ms) c refute s = .ok (v, o) s' ∧
      Enumerates (.candidates ms) t c refute v s' values (.miss refute) ∧
      Lists t values (remaining ms (query refute F) live) := by
  induction hn : (remaining ms (query refute F) live).length using Nat.strong_induction_on
    generalizing s live with
  | _ n ih =>
  have hiff := hs.satisfies_iff (query_unguarded refute hc)
  have hcheck := check_of_formula (.candidates ms) refute s hF
  simp only [Search.run.eq_def] at hcheck
  cases hfirst : Search.firstOf (s.asserted ++ [⟨some s.next, query refute F⟩]) s.next 0 ms with
  | none =>
    have hnothing : remaining ms (query refute F) live = [] := by
      refine List.eq_nil_iff_forall_not_mem.mpr fun m hm => ?_
      obtain ⟨hmem, hholds⟩ := mem_remaining.mp hm
      exact absurd (firstOf_eq_none hfirst m hmem) (by rw [(hiff m _).mpr hholds]; decide)
    rw [hfirst] at hcheck
    refine ⟨_, _, _, [], hcheck, ?_, hnothing ▸ ⟨.nil, nofun, nofun⟩⟩
    exact .done (by cases refute <;> decide)
  | some last =>
    obtain ⟨m, hm, hmodel, hsat⟩ := Search.firstOf_sound hfirst
    have hm : m ∈ remaining ms (query refute F) live :=
      mem_remaining.mpr ⟨hm, (hiff m _).mp hsat⟩
    rw [hfirst] at hcheck
    have hvalue : t.value last.model = t.value m := by
      rw [hmodel]
      exact congrArg (Sigma.mk t.1) (ht.eval_opened m _)
    have hdiffers : differs t last.model = differs t m := by
      rw [hmodel, differs, ht.eval_opened m]
      rfl
    have hruled := (hs.ask s.next).rule (ht.ne (Spine.unguarded_ofValue t.1 (t.2.eval m)))
    have hless := length_remaining_lt (t := t) hm
    obtain ⟨v', o', s', values, hcheck', henum, hlists⟩ := ih _ (hn ▸ hless) hruled rfl
      (s := { s with
        asserted := s.asserted ++ [⟨some s.next, query refute F⟩] ++ [⟨none, differs t m⟩]
        next := s.next + 1
        found := some last })
    rw [← hdiffers, ← exclude_eq (s := { s with
      asserted := s.asserted ++ [⟨some s.next, query refute F⟩]
      next := s.next + 1
      found := some last }) rfl] at hcheck'
    refine ⟨_, _, _, t.value m :: values, hcheck, ?_, hlists.cons hm⟩
    rw [← hvalue]
    exact .again (by cases refute <;> rfl) rfl hcheck' henum

/-- A check on a fresh solver and then exclusions, for as long as a model is found, come to an end:
what is left is proved, or unsatisfiable where models were asked for. The values on the way are
those of the term in the candidates that make the constraint false, or true. -/
theorem enumerates_exactly (hF : c.toFormula = .ok F) (hc : F.Unguarded) (ht : t.2.Unguarded)
    (ms : List Model) (refute : Bool) (next : Nat) :
    ∃ v o s values, check (.candidates ms) c refute (fresh next []) = .ok (v, o) s ∧
      Enumerates (.candidates ms) t c refute v s values (if refute then .proved else .unsat) ∧
      Lists t values (ms.filter fun m => F.holds m == !refute) := by
  obtain ⟨v, o, s, values, hcheck, henum, hlists⟩ := enumerates_remaining
    (s := fresh next []) hF hc ht ms refute .nil
  refine ⟨v, o, s, values, hcheck, henum, ?_⟩
  have hmodels : remaining ms (query refute F) [] = ms.filter fun m => F.holds m == !refute := by
    refine List.filter_congr fun m _ => ?_
    rw [List.all_nil, Bool.true_and, query_holds]
    cases F.holds m <;> cases refute <;> rfl
  rwa [hmodels] at hlists

/-- Both words that are left out are found, and then the rest is proved. -/
theorem enumerates_exactly_neither :
    ∃ v o s values, check (.candidates small) (.goal 0 "neither" neither none) true .start =
        .ok (v, o) s ∧
      Enumerates (.candidates small) ⟨_, octet⟩ (.goal 0 "neither" neither none) true v s values
        .proved ∧
      .word 1#8 ∈ values ∧ .word 2#8 ∈ values := by
  have hF : (Constr.goal 0 "neither" neither none).toFormula = .ok neither := Constr.toFormula_goal ..
  have hx : (⟨_, octet⟩ : SomeTerm).2.Unguarded := by
    intro n hn
    simp [octet, Spine.constants] at hn
  obtain ⟨v, o, s, values, hcheck, henum, hlists⟩ := enumerates_exactly hF
    (unguarded_neither _ hF) hx small true 0
  have hin : ∀ n, uniform n ∈ small → neither.holds (uniform n) = false →
      Value.word (BitVec.ofNat 8 n) ∈ values := by
    intro n hn hfalse
    obtain ⟨x, hxs, hag⟩ := hlists.complete (uniform n) (List.mem_filter.mpr ⟨hn, by rw [hfalse]; rfl⟩)
    rwa [hag.word] at hxs
  exact ⟨v, o, s, values, hcheck, henum, hin 1 (List.mem_cons_self ..) rfl,
    hin 2 (List.mem_cons_of_mem _ (List.mem_singleton_self _)) rfl⟩

end Solver

end Precond
