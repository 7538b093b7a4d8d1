import Mathlib.Data.List.Nodup
import Precond.Proofs.Constraint.Stack

/-! What constraints mean. A substitution of different constants is an assignment to all of them at
once (`Model.Assigned`), and a model satisfies a node by recursion on the tree (`Constr.Sat`): a part
that several nodes share is asked of another model below each of them. The formula of a constraint
says just that, although it is made once for each node (`Constr.formula_means`). -/

namespace Precond

/-- The second model is the first one after an assignment to all constants of the left sides at
once. -/
structure Model.Assigned (m : Model) (pairs : List (SomeTerm × SomeTerm)) (m' : Model) : Prop where
  func : m'.func = m.func
  new {n : String} {s : TSort} {x : Term s} :
    (⟨s, .const n s⟩, ⟨s, x⟩) ∈ pairs → m'.const n s = x.eval m
  other {n : String} {s : TSort} :
    (∀ p ∈ pairs, p.1 ≠ ⟨s, .const n s⟩) → m'.const n s = m.const n s

/-- Constants, each with one term of its sort. -/
structure Coherent (pairs : List (SomeTerm × SomeTerm)) : Prop where
  const : p ∈ pairs → ∃ n s x, p = (⟨s, .const n s⟩, ⟨s, x⟩)
  unique : p ∈ pairs → q ∈ pairs → p.1 = q.1 → p = q

/-- Different constants, each with a term of its sort. -/
structure Simultaneous (pairs : List (SomeTerm × SomeTerm)) : Prop where
  const : p ∈ pairs → ∃ n s x, p = (⟨s, .const n s⟩, ⟨s, x⟩)
  nodup : (pairs.map (·.1)).Nodup

namespace Constr

mutual

/-- A model satisfies a constraint. -/
def Sat (m : Model) : Constr → Prop
  | goal _ _ value _ => value.holds m = true
  | clause _ hyps goals => AllSat m hyps → AllSat m goals
  | branch _ _ cond yes no => if cond.holds m then yes.Sat m else no.Sat m
  | subst _ body pairs => ∃ m', m.Assigned pairs m' ∧ body.Sat m'

def AllSat (m : Model) : List Constr → Prop
  | [] => True
  | c :: cs => c.Sat m ∧ AllSat m cs

end

/-- All substitutions of a constraint replace different constants by terms of their sorts. -/
def Proper (c : Constr) : Prop :=
  ∀ id body pairs, Part c (subst id body pairs) → Simultaneous pairs

theorem allSat_iff {m : Model} {cs : List Constr} : AllSat m cs ↔ ∀ c ∈ cs, c.Sat m := by
  induction cs with
  | nil => simp [AllSat]
  | cons c cs ih => simp [AllSat, ih]

end Constr

/-! ### Substitutions -/

namespace Swap

/-- Where no other entry replaces a term, its entry does. -/
theorem find?_of_mem {s : TSort} {swaps : List Swap} {t x : Term s} (hx : ⟨t, x⟩ ∈ swaps)
    (ht : t.same t = true) (h : ∀ w ∈ swaps, w.old.same t = true → w = ⟨t, x⟩) :
    find? swaps t = some x := by
  have hfold : ∀ (ws : List Swap) (found : Option (Term s)),
      (∀ w ∈ ws, w.old.same t = true → w = ⟨t, x⟩) → found = some x ∨ ⟨t, x⟩ ∈ ws →
      ws.foldl (fun found w =>
        if w.old.same t then (if h : w.sort = s then some (h ▸ w.new) else found) else found) found =
        some x := by
    intro ws
    induction ws with
    | nil =>
      intro found _ hfound
      exact hfound.resolve_right List.not_mem_nil
    | cons w ws ih =>
      intro found hws hfound
      have hrest : ∀ v ∈ ws, v.old.same t = true → v = ⟨t, x⟩ :=
        fun v hv => hws v (List.mem_cons_of_mem _ hv)
      rw [List.foldl_cons]
      by_cases hw : w.old.same t = true
      · cases hws w List.mem_cons_self hw
        rw [if_pos hw, dif_pos rfl]
        exact ih _ hrest (.inl rfl)
      · rw [if_neg hw]
        refine ih _ hrest (hfound.imp_right fun hmem => ?_)
        rcases List.mem_cons.mp hmem with rfl | hmem
        · exact absurd ht hw
        · exact hmem
  exact hfold swaps none h (.inr hx)

end Swap

theorem Swap.ofPair?_pair {s : TSort} (old new : Term s) :
    Swap.ofPair? (⟨s, old⟩, ⟨s, new⟩) = some ⟨old, new⟩ := by
  simp only [Swap.ofPair?, dite_true]

namespace Coherent

open Constr

variable {pairs : List (SomeTerm × SomeTerm)} {p : SomeTerm × SomeTerm} {m m' : Model}

theorem tail (h : Coherent (p :: pairs)) : Coherent pairs where
  const hp := h.const (List.mem_cons_of_mem _ hp)
  unique hp hq := h.unique (List.mem_cons_of_mem _ hp) (List.mem_cons_of_mem _ hq)

theorem ofPairs (h : Coherent pairs) : Swap.ofPairs pairs = .ok (swaps pairs) := by
  induction pairs with
  | nil => rfl
  | cons p pairs ih =>
    obtain ⟨n, s, x, rfl⟩ := h.const List.mem_cons_self
    have hp := Swap.ofPair?_pair (.const n s) x
    have hswaps : swaps ((⟨s, .const n s⟩, ⟨s, x⟩) :: pairs) = ⟨.const n s, x⟩ :: swaps pairs := by
      rw [swaps, List.filterMap_cons, hp]
      rfl
    rw [Swap.ofPairs, hp, ih h.tail, hswaps]
    rfl

theorem mem_swaps (h : Coherent pairs) {w : Swap} (hw : w ∈ swaps pairs) :
    ∃ n s x, w = ⟨.const n s, x⟩ ∧ (⟨s, .const n s⟩, ⟨s, x⟩) ∈ pairs := by
  obtain ⟨p, hp, hw⟩ := List.mem_filterMap.mp hw
  obtain ⟨n, s, x, rfl⟩ := h.const hp
  rw [Swap.ofPair?_pair] at hw
  exact ⟨n, s, x, (Option.some.inj hw).symm, hp⟩

theorem onConst (h : Coherent pairs) : ∀ w ∈ swaps pairs, w.OnConst := by
  intro w hw
  obtain ⟨n, s, x, rfl, -⟩ := h.mem_swaps hw
  exact ⟨n, rfl⟩

/-- A constant is replaced by the term of its pair. -/
theorem find?_swaps (h : Coherent pairs) {n : String} {s : TSort} {x : Term s}
    (hx : (⟨s, .const n s⟩, ⟨s, x⟩) ∈ pairs) : Swap.find? (swaps pairs) (.const n s) = some x := by
  refine Swap.find?_of_mem ?_ (SomeTerm.const_same n s) fun w hw hsame => ?_
  · exact List.mem_filterMap.mpr ⟨_, hx, Swap.ofPair?_pair ..⟩
  · obtain ⟨n', s', x', rfl, hx'⟩ := h.mem_swaps hw
    have hold := SomeTerm.same_const (t := ⟨s', .const n' s'⟩) hsame
    have heq := h.unique hx' hx hold
    cases heq
    rfl

theorem find?_swaps_none (h : Coherent pairs) {n : String} {s : TSort}
    (hn : ∀ p ∈ pairs, p.1 ≠ ⟨s, .const n s⟩) : Swap.find? (swaps pairs) (.const n s) = none := by
  refine Swap.find?_eq_none fun w hw => ?_
  obtain ⟨n', s', x', rfl, hx'⟩ := h.mem_swaps hw
  exact Bool.eq_false_iff.mpr fun hsame =>
    hn _ hx' (SomeTerm.same_const (t := ⟨s', .const n' s'⟩) hsame)

theorem assigned_update (h : Coherent pairs) (m : Model) :
    m.Assigned pairs (m.update (swaps pairs)) where
  func := rfl
  new hx := by
    show Option.elim (Swap.find? (swaps pairs) _) _ _ = _
    rw [h.find?_swaps hx]
    rfl
  other hn := by
    show Option.elim (Swap.find? (swaps pairs) _) _ _ = _
    rw [h.find?_swaps_none hn]
    rfl

/-- There is one model after an assignment. -/
theorem eq_update (h : Coherent pairs) (ha : m.Assigned pairs m') :
    m' = m.update (swaps pairs) := by
  have hu := h.assigned_update m
  obtain ⟨const, func⟩ := m'
  cases ha.func
  refine congrArg (Model.mk · m.func) (funext fun n => funext fun s => ?_)
  by_cases hex : ∃ x, (⟨s, .const n s⟩, ⟨s, x⟩) ∈ pairs
  · obtain ⟨x, hx⟩ := hex
    exact (ha.new hx).trans (hu.new hx).symm
  · have hn : ∀ p ∈ pairs, p.1 ≠ ⟨s, .const n s⟩ := by
      intro p hp heq
      obtain ⟨n', s', x, rfl⟩ := h.const hp
      cases heq
      exact hex ⟨x, hp⟩
    exact (ha.other hn).trans (hu.other hn).symm

/-- A formula under a substitution says of a model what the formula says after the assignment. -/
theorem under (h : Coherent pairs) (t : Term .bool) :
    ∃ t', t.under pairs = .ok t' ∧ ∀ m, t'.holds m = t.holds (m.update (swaps pairs)) := by
  refine ⟨t.replace (swaps pairs), ?_, fun m => Spine.eval_replace h.onConst m t⟩
  rw [Term.under, h.ofPairs]
  rfl

/-- A substitution asks its body of the model after the assignment. -/
theorem subst {body : Constr} (h : Coherent pairs) (hb : body.Formal) (id : Nat) :
    (Constr.subst id body pairs).Formal ∧
      ∀ m, (Constr.subst id body pairs).truth m = body.truth (m.update (swaps pairs)) := by
  obtain ⟨t, ht⟩ := hb
  obtain ⟨t', ht', hm⟩ := h.under t
  have hplain : (Constr.subst id body pairs).plain = .ok t' := by
    rw [plain, ht]
    exact ht'
  refine ⟨⟨t', hplain⟩, fun m => ?_⟩
  rw [truth_of_plain hplain, truth_of_plain ht, hm]

end Coherent

namespace Simultaneous

variable {pairs : List (SomeTerm × SomeTerm)} {m m' : Model}

theorem coherent (h : Simultaneous pairs) : Coherent pairs where
  const := h.const
  unique hp hq := List.inj_on_of_nodup_map h.nodup hp hq

theorem assigned_update (h : Simultaneous pairs) (m : Model) :
    m.Assigned pairs (m.update (Constr.swaps pairs)) := h.coherent.assigned_update m

/-- There is one model after an assignment. -/
theorem eq_update (h : Simultaneous pairs) (ha : m.Assigned pairs m') :
    m' = m.update (Constr.swaps pairs) := h.coherent.eq_update ha

end Simultaneous

/-! ### Formulas -/

namespace Constr

variable {c d : Constr} {m : Model}

/-- What is closed under parts holds all parts of what it holds. -/
theorem Part.mem {S : List Constr} (hS : ∀ d ∈ S, ∀ e ∈ d.children, e ∈ S) (hc : c ∈ S)
    (h : Part c d) : d ∈ S := by
  induction h with
  | refl => exact hc
  | tail _ he ih => exact hS _ ih _ he

theorem Numbered.of_mem {S : List Constr} (hS : ∀ d ∈ S, ∀ e ∈ d.children, e ∈ S) (hc : c ∈ S)
    (h : (S.map Constr.id).Nodup) : Numbered (Part c) where
  children hd he := hd.tail he
  inj hd he hid := List.inj_on_of_nodup_map h (hd.mem hS hc) (he.mem hS hc) hid

theorem Proper.part (h : c.Proper) (hd : Part c d) : d.Proper :=
  fun id body pairs hp => h id body pairs (hd.trans hp)

theorem Proper.child (h : c.Proper) (hd : d ∈ c.children) : d.Proper := h.part (.single hd)

mutual

/-- The formula of a constraint says what the constraint says. -/
theorem Proper.plain : (c : Constr) → c.Proper →
    ∃ t, c.plain = .ok t ∧ ∀ m, t.holds m = c.holds m
  | goal _ _ value _, _ => ⟨value, rfl, fun _ => rfl⟩
  | clause id hyps goals, h => by
    obtain ⟨hs, hhs, hm⟩ := Proper.plains hyps fun d hd => h.child (List.mem_append_left _ hd)
    obtain ⟨gs, hgs, gm⟩ := Proper.plains goals fun d hd => h.child (List.mem_append_right _ hd)
    refine ⟨if hs.isEmpty then Term.conj gs else (Term.conj hs).implies (Term.conj gs), ?_,
      fun m => ?_⟩
    · rw [Constr.plain, hhs, hgs]
      rfl
    · rw [Constr.holds, ← hm, ← gm]
      split
      · rename_i he
        rw [List.isEmpty_iff.mp he, holds_conj]
        rfl
      · rw [Spine.holds_implies, holds_conj, holds_conj]
  | branch id jump cond yes no, h => by
    obtain ⟨y, hy, ym⟩ := Proper.plain yes (h.child List.mem_cons_self)
    obtain ⟨n, hn, nm⟩ := Proper.plain no (h.child (List.mem_cons_of_mem _ List.mem_cons_self))
    refine ⟨Term.ite cond y n, ?_, fun m => ?_⟩
    · rw [Constr.plain, hy, hn]
      rfl
    · rw [Constr.holds, Spine.holds_ite, ym, nm]
  | subst id body pairs, h => by
    obtain ⟨t, ht, tm⟩ := Proper.plain body (h.child List.mem_cons_self)
    obtain ⟨t', ht', tm'⟩ := (h id body pairs .refl).coherent.under t
    refine ⟨t', ?_, fun m => ?_⟩
    · rw [Constr.plain, ht]
      exact ht'
    · rw [Constr.holds, tm', tm]

theorem Proper.plains : (cs : List Constr) → (∀ c ∈ cs, c.Proper) →
    ∃ ts, Constr.plains cs = .ok ts ∧ ∀ m, (ts.all fun t => t.holds m) = allHold m cs
  | [], _ => ⟨[], rfl, fun _ => rfl⟩
  | c :: cs, h => by
    obtain ⟨t, ht, tm⟩ := Proper.plain c (h c List.mem_cons_self)
    obtain ⟨ts, hts, tsm⟩ := Proper.plains cs fun d hd => h d (List.mem_cons_of_mem _ hd)
    refine ⟨t :: ts, ?_, fun m => ?_⟩
    · rw [Constr.plains, ht, hts]
      rfl
    · rw [List.all_cons, allHold, tm, tsm]

end

mutual

/-- Whether a model satisfies a constraint is computed by updating the model. -/
theorem Proper.sat_iff : (c : Constr) → c.Proper → ∀ m, c.Sat m ↔ c.holds m = true
  | goal _ _ value _, _, m => Iff.rfl
  | clause id hyps goals, h, m => by
    have hh := Proper.allSat_iff hyps (fun d hd => h.child (List.mem_append_left _ hd)) m
    have hg := Proper.allSat_iff goals (fun d hd => h.child (List.mem_append_right _ hd)) m
    rw [Sat, holds, hh, hg]
    cases allHold m hyps <;> cases allHold m goals <;> simp
  | branch id jump cond yes no, h, m => by
    have hy := Proper.sat_iff yes (h.child List.mem_cons_self) m
    have hn := Proper.sat_iff no (h.child (List.mem_cons_of_mem _ List.mem_cons_self)) m
    rw [Sat, holds]
    split
    · exact hy
    · exact hn
  | subst id body pairs, h, m => by
    have hsim := h id body pairs .refl
    have hb := Proper.sat_iff body (h.child List.mem_cons_self) (m.update (swaps pairs))
    rw [Sat, holds, ← hb]
    constructor
    · rintro ⟨m', ha, hm'⟩
      rw [← hsim.eq_update ha]
      exact hm'
    · intro hm
      exact ⟨_, hsim.assigned_update m, hm⟩

theorem Proper.allSat_iff : (cs : List Constr) → (∀ c ∈ cs, c.Proper) → ∀ m,
    AllSat m cs ↔ allHold m cs = true
  | [], _, m => by simp [AllSat, allHold]
  | c :: cs, h, m => by
    have hc := Proper.sat_iff c (h c List.mem_cons_self) m
    have hcs := Proper.allSat_iff cs (fun d hd => h d (List.mem_cons_of_mem _ hd)) m
    rw [AllSat, allHold, hc, hcs, Bool.and_eq_true]

end

/-- The formula of a constraint is true in a model just if the model satisfies the constraint. Both
ways to make it give one formula, and what is kept for each node on the way says what the node
says, wherever it is shared. -/
theorem formula_means (hc : Numbered (Part c)) (hp : c.Proper) :
    ∃ t memo, c.toFormula = .ok t ∧ c.formulaFromStack = .ok (t, memo) ∧
      (∀ m, t.holds m = true ↔ c.Sat m) ∧
      ∀ d, Part c d → ∃ u, memo[d.id]? = some u ∧ ∀ m, u.holds m = true ↔ d.Sat m := by
  obtain ⟨t, ht, hm⟩ := Proper.plain c hp
  obtain ⟨memo, hstack, hkept⟩ := hc.formulaFromStack .refl ht
  refine ⟨t, memo, (hc.toFormula_eq .refl).trans ht, hstack, fun m => ?_, fun d hd => ?_⟩
  · rw [hm, Proper.sat_iff c hp]
  · obtain ⟨u, hu, hplain⟩ := hkept d hd
    obtain ⟨u', hu', hm'⟩ := Proper.plain d (hp.part hd)
    cases hplain.symm.trans hu'
    exact ⟨u, hu, fun m => by rw [hm', Proper.sat_iff d (hp.part hd)]⟩

/-! A goal that is shared as a hypothesis, below a substitution whose terms hold its own constants,
and below another one around that. -/

def shared : Constr :=
  goal 0 "same" (.eq (.const "R0" (.bv 8)) (.const "R1" (.bv 8))) none

def exchanged : Constr :=
  subst 1 shared [(⟨.bv 8, .const "R0" (.bv 8)⟩, ⟨.bv 8, .const "R1" (.bv 8)⟩),
    (⟨.bv 8, .const "R1" (.bv 8)⟩, ⟨.bv 8, .bin .add (.const "R0" (.bv 8)) (.numeral 8 1)⟩)]

def copied : Constr :=
  subst 2 exchanged [(⟨.bv 8, .const "R1" (.bv 8)⟩, ⟨.bv 8, .const "R0" (.bv 8)⟩)]

def overlapping : Constr := clause 3 [shared] [exchanged, copied]

theorem overlapping_parts : ∀ d ∈ [overlapping, copied, exchanged, shared], ∀ e ∈ d.children,
    e ∈ [overlapping, copied, exchanged, shared] := by
  simp [children, overlapping, copied, exchanged, shared]

theorem overlapping_numbered : Numbered (Part overlapping) :=
  .of_mem overlapping_parts List.mem_cons_self (by decide)

theorem overlapping_proper : overlapping.Proper := by
  intro id body pairs hpart
  have hmem := hpart.mem overlapping_parts List.mem_cons_self
  simp only [List.mem_cons, List.not_mem_nil, or_false] at hmem
  rcases hmem with h | h | h | h <;> cases h
  · refine ⟨fun hp => ?_, List.nodup_singleton _⟩
    cases List.mem_singleton.mp hp
    exact ⟨_, _, _, rfl⟩
  · refine ⟨fun hp => ?_, by simp⟩
    rcases List.mem_cons.mp hp with rfl | hp
    · exact ⟨_, _, _, rfl⟩
    · cases List.mem_singleton.mp hp
      exact ⟨_, _, _, rfl⟩

theorem formula_means_overlapping :
    Numbered (Part overlapping) ∧ overlapping.Proper ∧
      ∃ t memo, overlapping.toFormula = .ok t ∧ overlapping.formulaFromStack = .ok (t, memo) ∧
        (∀ m, t.holds m = true ↔ overlapping.Sat m) ∧
        ∀ d, Part overlapping d → ∃ u, memo[d.id]? = some u ∧ ∀ m, u.holds m = true ↔ d.Sat m :=
  ⟨overlapping_numbered, overlapping_proper,
    formula_means overlapping_numbered overlapping_proper⟩

end Constr

end Precond
