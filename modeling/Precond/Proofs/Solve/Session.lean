import Mathlib.Data.List.Forall2
import Precond.Proofs.Constraint.Formula
import Precond.Proofs.Env.Names
import Precond.Proofs.Term.Value
import Precond.Solve.Candidate
import Precond.Solve.Solver

/-! The guards of checks. A term that does not read guards has the same value whichever of them are
open (`Spine.Unguarded.eval_opened`). Where a model keeps all guards shut but the one that is opened,
formulas under other guards bind nothing (`Search.satisfies_opened`).

Checks on one solver do not bind each other. Whatever has been checked, ruled out, pushed and
popped before, a check answers as it would on a solver that keeps nothing but what has been ruled out
and is still in scope (`Solver.session_independent`). -/

namespace Precond

variable {d : List TSort} {r : TSort} {m m' : Model} {k n : Nat}

theorem guardName_inj (h : guardName k = guardName n) : k = n := by
  have hl := congrArg String.toList h
  rw [guardName, guardName, String.toList_append, String.toList_append] at hl
  exact Nat.repr_injective (String.toList_inj.mp (List.append_cancel_left hl))

/-! ### Terms -/

namespace Spine

/-- No guard of a check is read. -/
def Unguarded (t : Spine d r) : Prop := ∀ n, (guardName n, TSort.bool) ∉ t.constants

theorem Unguarded.eval_opened {t : Spine d r} (ht : t.Unguarded) (m : Model) (k : Nat) :
    t.eval (Search.opened m k) = t.eval m := by
  have hfunc : (Search.opened m k).func = m.func := rfl
  refine eval_congr hfunc fun c hc => ?_
  have hne : ¬ (c.1 = guardName k ∧ TSort.bool = c.2) := by
    rintro ⟨hn, hs⟩
    exact ht k (hn ▸ hs ▸ hc)
  exact dif_neg hne

theorem Unguarded.not {p : Term .bool} (hp : p.Unguarded) : (Term.not p).Unguarded := hp

theorem unguarded_ofValue (s : TSort) (v : s.Val) : (Term.ofValue s v).Unguarded := by
  cases s <;> exact fun _ => List.not_mem_nil

theorem Unguarded.ne {s : TSort} {x y : Term s} (hx : x.Unguarded) (hy : y.Unguarded) :
    (Term.ne x y).Unguarded := by
  intro n hn
  unfold Term.ne at hn
  split at hn
  · exact (List.mem_append.mp hn).elim (hy n) (hx n)
  · exact (List.mem_append.mp hn).elim (hx n) (hy n)

end Spine

/-- All guards are shut. -/
def Model.Shut (m : Model) : Prop := ∀ n, m.const (guardName n) .bool = false

/-- A candidate that does not name guards keeps them shut. -/
theorem Candidate.model_shut {c : Candidate} (h : ∀ n, c.lookup (guardName n) = none) :
    c.model.Shut := by
  intro n
  have hchars : (guardName n).toList = "__check_".toList ++ (toString n).toList :=
    String.toList_append ..
  have hmod : dropFront "mod." (guardName n) = none := by
    rw [dropFront, hchars]
    rfl
  have hinit : dropFront "init_" (guardName n) = none := by
    rw [dropFront, hchars]
    rfl
  have hnames : namesOf (guardName n) = [guardName n] := by
    rw [namesOf, origName, hmod]
    simp [hinit]
  have hnothing : c.sketch (guardName n) = .nothing := by
    rw [sketch, hnames, List.findSome?_cons, h]
    rfl
  show (c.sketch (guardName n)).value .bool = false
  rw [hnothing]
  rfl

namespace Search

theorem opened_self (m : Model) (k : Nat) : (opened m k).const (guardName k) .bool = true :=
  dif_pos ⟨rfl, rfl⟩

theorem opened_of_ne (hm : m.Shut) (h : n ≠ k) : (opened m k).const (guardName n) .bool = false := by
  rw [← hm n]
  exact dif_neg fun hn => h (guardName_inj hn.1)

/-- Where one guard is open, formulas under others bind nothing. -/
theorem holds_opened (hm : m.Shut) {g : Guarded} (hg : g.formula.Unguarded) (k : Nat) :
    g.toTerm.holds (opened m k) = (!g.guard.all (· == k) || g.formula.holds m) := by
  have hformula : g.formula.holds (opened m k) = g.formula.holds m := hg.eval_opened m k
  obtain ⟨guard, formula⟩ := g
  cases guard with
  | none => exact hformula
  | some n =>
    have hguard : (Spine.const (guardName n) .bool).holds (opened m k) = (n == k) := by
      by_cases hn : n = k
      · rw [hn, beq_self_eq_true]
        exact opened_self m k
      · rw [beq_false_of_ne hn]
        exact opened_of_ne hm hn
    rw [Guarded.toTerm, Spine.holds_implies, hguard, hformula]
    rfl

end Search

/-- What a solver keeps: the formulas without guards, and formulas under guards that have been used. -/
structure Keeps (next : Nat) (fs : List Guarded) (live : List (Term .bool)) : Prop where
  unguarded : ∀ g ∈ fs, g.formula.Unguarded
  older : ∀ g ∈ fs, ∀ n, g.guard = some n → n < next
  live : (fs.filter (·.guard.isNone)).map (·.formula) = live

namespace Keeps

variable {next : Nat} {fs : List Guarded} {live : List (Term .bool)} {p : Term .bool}

theorem nil (next : Nat) : Keeps next [] [] := ⟨nofun, nofun, rfl⟩

theorem mono (h : Keeps next fs live) (hn : next ≤ n) : Keeps n fs live :=
  { h with older := fun g hg k hk => (h.older g hg k hk).trans_le hn }

/-- A formula without a guard. -/
theorem assert (h : Keeps next fs live) (hp : p.Unguarded) :
    Keeps next (fs ++ [⟨none, p⟩]) (live ++ [p]) where
  unguarded := List.forall_mem_append.mpr ⟨h.unguarded, List.forall_mem_singleton.mpr hp⟩
  older := List.forall_mem_append.mpr ⟨h.older, List.forall_mem_singleton.mpr nofun⟩
  live := by
    rw [List.filter_append, List.map_append, h.live]
    rfl

/-- A formula under the next guard. -/
theorem guard (h : Keeps next fs live) (hp : p.Unguarded) :
    Keeps (next + 1) (fs ++ [⟨some next, p⟩]) live where
  unguarded := List.forall_mem_append.mpr ⟨h.unguarded, List.forall_mem_singleton.mpr hp⟩
  older := List.forall_mem_append.mpr ⟨(h.mono (Nat.le_succ next)).older,
    List.forall_mem_singleton.mpr fun n hn => Option.some.inj hn ▸ Nat.lt_succ_self next⟩
  live := by
    rw [List.filter_append, List.map_append, h.live]
    exact List.append_nil live

theorem ofList (next : Nat) (h : ∀ p ∈ live, p.Unguarded) : Keeps next (live.map (⟨none, ·⟩)) live where
  unguarded := List.forall_mem_map.mpr h
  older := List.forall_mem_map.mpr fun _ _ => nofun
  live := by
    induction live with
    | nil => rfl
    | cons p live ih => rw [List.map_cons, List.filter_cons_of_pos rfl, List.map_cons,
        ih fun q hq => h q (List.mem_cons_of_mem p hq)]

/-- A model that opens the next guard satisfies what binds without a guard and what is under that one. -/
theorem satisfies (h : Keeps next fs live) (hm : m.Shut) (hp : p.Unguarded) :
    Search.satisfies (fs ++ [⟨some next, p⟩]) (Search.opened m next) =
      (live.all (·.holds m) && p.holds m) := by
  have hold : ∀ g ∈ fs, g.toTerm.holds (Search.opened m next) =
      (!g.guard.isNone || g.formula.holds m) := by
    intro g hg
    rw [Search.holds_opened hm (h.unguarded g hg)]
    cases hguard : g.guard with
    | none => rfl
    | some n =>
      have hne : (n == next) = false := beq_false_of_ne (h.older g hg n hguard).ne
      rw [Option.all_some, hne]
      rfl
  have hall : fs.all (·.toTerm.holds (Search.opened m next)) = live.all (·.holds m) := by
    rw [← h.live, List.all_map, List.all_filter, Bool.eq_iff_iff, List.all_eq_true, List.all_eq_true]
    exact forall₂_congr fun g hg => by rw [hold g hg]; rfl
  rw [Search.satisfies, List.all_append, hall, List.all_cons, List.all_nil, Bool.and_true,
    Search.holds_opened hm hp, Option.all_some, beq_self_eq_true]
  rfl

end Keeps

/-! ### Checks -/

/-- The formula of the constraint does not read guards. -/
def Constr.Unguarded (c : Constr) : Prop := ∀ F, c.toFormula = .ok F → F.Unguarded

namespace Search

variable {fs fs' : List Guarded} {k k' : Nat} {ms : List Model} {found : Found}

/-- A candidate that is found satisfies all formulas. -/
theorem firstOf_sound {i : Nat} (h : firstOf fs k i ms = some found) :
    ∃ m ∈ ms, found.model = opened m k ∧ satisfies fs (opened m k) = true := by
  induction ms generalizing i with
  | nil => cases h
  | cons m ms ih =>
    rw [firstOf] at h
    split at h
    · rename_i hm
      cases h
      exact ⟨m, List.mem_cons_self, rfl, hm⟩
    · obtain ⟨m', hm', hfound⟩ := ih h
      exact ⟨m', List.mem_cons_of_mem m hm', hfound⟩

/-- Formulas that the same candidates satisfy are satisfied by a candidate or not alike. -/
theorem firstOf_isSome {i : Nat}
    (h : ∀ m ∈ ms, satisfies fs (opened m k) = satisfies fs' (opened m k')) :
    (firstOf fs k i ms).isSome = (firstOf fs' k' i ms).isSome := by
  induction ms generalizing i with
  | nil => rfl
  | cons m ms ih =>
    rw [firstOf, firstOf, h m List.mem_cons_self]
    split
    · rfl
    · exact ih fun m' hm' => h m' (List.mem_cons_of_mem m hm')

theorem run_eq_sat (h : (candidates ms).run fs k = .sat found) :
    firstOf fs k 0 ms = some found := by
  rw [run] at h
  cases hfirst : firstOf fs k 0 ms with
  | none =>
    rw [hfirst] at h
    cases h
  | some f =>
    rw [hfirst] at h
    cases h
    rfl

end Search

namespace Solver

/-- What a check looks for. -/
def query (refute : Bool) (F : Term .bool) : Term .bool := if refute then F.not else F

/-- A solver on which nothing has been checked yet, with a number for its first guard. -/
def fresh (next : Nat) (live : List (Term .bool)) : Solver := ⟨live.map (⟨none, ·⟩), [], next, none⟩

/-- The value of a term in a model is ruled out. -/
def differs (t : SomeTerm) (m : Model) : Term .bool := Term.ne t.2 (.ofValue t.1 (t.2.eval m))

/-- A check that has been made, what was ruled out for it, and what it has found. -/
structure Answer where
  constr : Constr
  refute : Bool
  scope : List (Term .bool)
  verdict : Verdict
  outcome : Outcome

/-- Steps on one solver that do not fault: the answers so far, what is ruled out now, what was ruled
out at each push that has not been undone, and the solver. Guards are new names, which no constraint
and no term reads. -/
inductive Session (how : Search) :
    List Answer → List (Term .bool) → List (List (Term .bool)) → Solver → Prop
  | start : Session how [] [] [] .start
  | check : Session how answers live outer s → c.Unguarded →
      Solver.check how c refute s = .ok (v, o) s' →
      Session how (answers ++ [⟨c, refute, live, v, o⟩]) live outer s'
  | exclude : Session how answers live outer s → s.found = some last → t.2.Unguarded →
      c.Unguarded → Solver.exclude how t c refute s = .ok (v, o) s' →
      Session how (answers ++ [⟨c, refute, live ++ [differs t last.model], v, o⟩])
        (live ++ [differs t last.model]) outer s'
  | push : Session how answers live outer s → Solver.push s = .ok u s' →
      Session how answers live (live :: outer) s'
  | pop : Session how answers live (before :: outer) s → Solver.pop s = .ok u s' →
      Session how answers before outer s'

namespace Answer

/-- The answer is the one of a solver that keeps only what is ruled out. -/
def Alone (how : Search) (a : Answer) : Prop :=
  ∀ n, ∃ r s', Solver.check how a.constr a.refute (fresh n a.scope) = .ok r s' ∧ r.1 = a.verdict

/-- A model that has been found makes the constraint false, or true if that was asked for, and
nothing in it is ruled out. -/
def Witnessed (a : Answer) : Prop :=
  a.verdict = .refuted ∨ a.verdict = .sat → ∃ found F, a.outcome = .sat found ∧
    a.constr.toFormula = .ok F ∧ F.holds found.model = decide (a.verdict = .sat) ∧
    ∀ p ∈ a.scope, p.holds found.model = true

end Answer

variable {how : Search} {ms : List Model} {c : Constr} {refute : Bool} {s s' : Solver}
  {v : Verdict} {o : Outcome} {F : Term .bool} {live : List (Term .bool)}

theorem query_holds (refute : Bool) (F : Term .bool) (m : Model) :
    (query refute F).holds m = (F.holds m != refute) := by
  cases refute <;> simp [query]

theorem query_unguarded (refute : Bool) (hF : F.Unguarded) : (query refute F).Unguarded := by
  cases refute
  · exact hF
  · exact hF.not

/-- A check of a constraint that has a formula. -/
theorem check_of_formula (how : Search) (refute : Bool) (s : Solver) (hF : c.toFormula = .ok F) :
    check how c refute s =
      let fs := s.asserted ++ [⟨some s.next, query refute F⟩]
      let o := how.run fs s.next
      .ok (verdictOf refute o, o)
        { s with asserted := fs, next := s.next + 1, found := foundIn o } := by
  unfold check
  rw [hF]
  rfl

theorem check_inv (h : check how c refute s = .ok (v, o) s') : ∃ F, c.toFormula = .ok F ∧
    o = how.run (s.asserted ++ [⟨some s.next, query refute F⟩]) s.next ∧ v = verdictOf refute o ∧
    s' = { s with
      asserted := s.asserted ++ [⟨some s.next, query refute F⟩]
      next := s.next + 1
      found := foundIn o } := by
  cases hF : c.toFormula with
  | error f =>
    unfold check at h
    rw [hF] at h
    cases h
  | ok F =>
    rw [check_of_formula how refute s hF] at h
    cases h
    exact ⟨F, rfl, rfl, rfl, rfl⟩

/-- To exclude a value is to rule it out and to check again. -/
theorem exclude_eq {t : SomeTerm} {last : Found} (h : s.found = some last) :
    exclude how t c refute s =
      check how c refute { s with asserted := s.asserted ++ [⟨none, differs t last.model⟩] } := by
  obtain ⟨asserted, saved, next, found⟩ := s
  cases h
  rfl

/-- What is found by going through candidates is told by whether there is one. -/
theorem verdictOf_candidates (refute : Bool) (ms : List Model) (fs : List Guarded) (k : Nat) :
    verdictOf refute ((Search.candidates ms).run fs k) =
      if (Search.firstOf fs k 0 ms).isSome then (if refute then .refuted else .sat)
      else if refute then .proved else .unsat := by
  rw [Search.run]
  cases Search.firstOf fs k 0 ms <;> rfl

theorem sat_of_verdict (h : verdictOf refute o = .refuted ∨ verdictOf refute o = .sat) :
    ∃ last, o = .sat last := by
  cases o with
  | sat last => exact ⟨last, rfl⟩
  | unsat => cases refute <;> simp [verdictOf] at h
  | unknown => simp [verdictOf] at h

/-- A check on a solver that keeps old formulas under guards only. -/
theorem check_alone (hms : ∀ m ∈ ms, m.Shut) (hs : Keeps s.next s.asserted live) (hc : c.Unguarded)
    (h : Solver.check (.candidates ms) c refute s = .ok (v, o) s') :
    Answer.Alone (.candidates ms) ⟨c, refute, live, v, o⟩ ∧ Answer.Witnessed ⟨c, refute, live, v, o⟩ ∧
      Keeps s'.next s'.asserted live ∧ s'.saved = s.saved ∧ s.next ≤ s'.next := by
  obtain ⟨F, hF, rfl, rfl, rfl⟩ := check_inv h
  have hq := query_unguarded refute (hc F hF)
  have hlive : ∀ p ∈ live, p.Unguarded := by
    intro p hp
    rw [← hs.live] at hp
    obtain ⟨g, hg, rfl⟩ := List.mem_map.mp hp
    exact hs.unguarded g (List.mem_filter.mp hg).1
  refine ⟨fun n => ?_, fun hv => ?_, hs.guard hq, rfl, Nat.le_succ _⟩
  · have hn : Keeps n (fresh n live).asserted live := .ofList n hlive
    have hsame : ∀ m ∈ ms,
        Search.satisfies (s.asserted ++ [⟨some s.next, query refute F⟩]) (Search.opened m s.next) =
          Search.satisfies ((fresh n live).asserted ++ [⟨some n, query refute F⟩])
            (Search.opened m n) := fun m hm => by
      rw [hs.satisfies (hms m hm) hq, hn.satisfies (hms m hm) hq]
    refine ⟨_, _, check_of_formula _ refute _ hF, ?_⟩
    rw [verdictOf_candidates, verdictOf_candidates, Search.firstOf_isSome hsame]
    rfl
  · obtain ⟨last, hlast⟩ := sat_of_verdict hv
    obtain ⟨m, hm, hmodel, hsat⟩ := Search.firstOf_sound (Search.run_eq_sat hlast)
    rw [hs.satisfies (hms m hm) hq, Bool.and_eq_true, List.all_eq_true, query_holds] at hsat
    refine ⟨last, F, hlast, hF, ?_, fun p hp => ?_⟩
    · have hverdict : decide (verdictOf refute (Outcome.sat last) = .sat) = !refute := by
        cases refute <;> rfl
      rw [hmodel, hlast, hverdict, Spine.holds, (hc F hF).eval_opened]
      exact Bool.eq_not_of_ne (bne_iff_ne.mp hsat.2)
    · rw [hmodel, Spine.holds, (hlive p hp).eval_opened]
      exact hsat.1 p hp

/-- Whatever has happened on a solver, each check has answered as on a solver of its own that keeps
what is ruled out, and a model that it has found is one of its constraint there. -/
theorem session_independent (hms : ∀ m ∈ ms, m.Shut) {answers : List Answer}
    {outer : List (List (Term .bool))} (h : Session (.candidates ms) answers live outer s) :
    ∀ a ∈ answers, a.Alone (.candidates ms) ∧ a.Witnessed := by
  suffices hall : (∀ a ∈ answers, a.Alone (.candidates ms) ∧ a.Witnessed) ∧
      Keeps s.next s.asserted live ∧ List.Forall₂ (Keeps s.next) s.saved outer from hall.1
  induction h with
  | start => exact ⟨nofun, .nil 0, .nil⟩
  | check h hc hcheck ih =>
    obtain ⟨hanswers, hkeeps, hsaved⟩ := ih
    obtain ⟨halone, hwitnessed, hkeeps', hs, hn⟩ := check_alone hms hkeeps hc hcheck
    refine ⟨List.forall_mem_append.mpr ⟨hanswers, List.forall_mem_singleton.mpr ⟨halone, hwitnessed⟩⟩,
      hkeeps', ?_⟩
    rw [hs]
    exact hsaved.imp fun _ _ hk => hk.mono hn
  | @exclude answers live outer s last t c refute v o s' h hlast ht hc hcheck ih =>
    obtain ⟨hanswers, hkeeps, hsaved⟩ := ih
    have hruled := hkeeps.assert (ht.ne (Spine.unguarded_ofValue t.1 (t.2.eval last.model)))
    rw [exclude_eq hlast] at hcheck
    obtain ⟨halone, hwitnessed, hkeeps', hs, hn⟩ := check_alone hms hruled hc hcheck
    refine ⟨List.forall_mem_append.mpr ⟨hanswers, List.forall_mem_singleton.mpr ⟨halone, hwitnessed⟩⟩,
      hkeeps', ?_⟩
    rw [hs]
    exact hsaved.imp fun _ _ hk => hk.mono hn
  | push h hpush ih =>
    cases hpush
    exact ⟨ih.1, ih.2.1, .cons ih.2.1 ih.2.2⟩
  | @pop answers live before outer s u s' h hpop ih =>
    obtain ⟨hanswers, hkeeps, hsaved⟩ := ih
    obtain ⟨asserted, saved, next, last⟩ := s
    cases hsaved with
    | cons hbefore houter =>
      cases hpop
      exact ⟨hanswers, hbefore, houter⟩

namespace Session

variable {answers : List Answer} {outer : List (List (Term .bool))}

/-- A check of a constraint that has a formula. -/
theorem checked (h : Session how answers live outer s) (refute : Bool) (hc : c.Unguarded)
    (hF : c.toFormula = .ok F) :
    let fs := s.asserted ++ [⟨some s.next, query refute F⟩]
    let o := how.run fs s.next
    Session how (answers ++ [⟨c, refute, live, verdictOf refute o, o⟩]) live outer
      { s with asserted := fs, next := s.next + 1, found := foundIn o } :=
  h.check hc (check_of_formula how refute s hF)

theorem excluded (h : Session how answers live outer s) (refute : Bool) {last : Found} {t : SomeTerm}
    (hlast : s.found = some last) (ht : t.2.Unguarded) (hc : c.Unguarded)
    (hF : c.toFormula = .ok F) :
    let ruled := live ++ [differs t last.model]
    let fs := s.asserted ++ [⟨none, differs t last.model⟩] ++ [⟨some s.next, query refute F⟩]
    let o := how.run fs s.next
    Session how (answers ++ [⟨c, refute, ruled, verdictOf refute o, o⟩]) ruled outer
      { s with asserted := fs, next := s.next + 1, found := foundIn o } :=
  h.exclude hlast ht hc ((exclude_eq hlast).trans (check_of_formula how refute _ hF))

end Session

/-! ### Counterexamples one after the other -/

def octet : Term (.bv 8) := .const "x" (.bv 8)

/-- Neither one nor two. -/
def neither : Term .bool := (Term.or [.eq octet (.numeral 8 1), .eq octet (.numeral 8 2)]).not

/-- All words have one value. -/
def uniform (v : Nat) : Model where
  const _ s := match s with
    | .bool => false
    | .bv w => BitVec.ofNat w v
    | .mem _ c => ⟨0#c, []⟩
  func _ dom ran := Fn.const dom ran.zero

def small : List Model := [uniform 1, uniform 2]

theorem small_shut : ∀ m ∈ small, m.Shut := by
  rw [small, List.forall_mem_cons, List.forall_mem_singleton]
  exact ⟨fun _ => rfl, fun _ => rfl⟩

theorem unguarded_neither : (Constr.goal 0 "neither" neither none).Unguarded := by
  intro F hF n hn
  cases (Constr.toFormula_goal ..).symm.trans hF
  rw [show neither.constants = [("x", .bv 8), ("x", .bv 8)] from rfl] at hn
  simp at hn

theorem session_independent_enumerates :
    ∃ answers live outer s, Session (.candidates small) answers live outer s ∧
      answers.map (·.verdict) = [.refuted, .refuted, .proved, .refuted] ∧
      ∀ a ∈ answers, a.Alone (.candidates small) ∧ a.Witnessed := by
  have hc := unguarded_neither
  have hF : (Constr.goal 0 "neither" neither none).toFormula = .ok neither := Constr.toFormula_goal ..
  have hx : (⟨_, octet⟩ : SomeTerm).2.Unguarded := by
    intro n hn
    simp [octet, Spine.constants] at hn
  have h₀ : Session (.candidates small) [] [] [] .start := .start
  have h₁ := h₀.checked true hc hF
  have h₂ := h₁.push rfl
  have h₃ := h₂.excluded true (show _ = some (Found.mk (Search.opened (uniform 1) 0) (some 0)) from rfl)
    hx hc hF
  have h₄ := h₃.excluded true (show _ = some (Found.mk (Search.opened (uniform 2) 1) (some 1)) from rfl)
    hx hc hF
  have h₅ := h₄.pop rfl
  have h₆ := h₅.checked true hc hF
  exact ⟨_, _, _, _, h₆, rfl, session_independent small_shut h₆⟩

end Solver

end Precond
