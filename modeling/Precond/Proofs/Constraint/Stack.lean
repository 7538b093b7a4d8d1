import Precond.Constraint.Stack
import Precond.Proofs.Constraint.Formula

/-! Working off a stack of nodes. The formulas that are kept stay those of the nodes, and whatever is
kept, the formulas of its parts are kept too (`Memo.Closed`). A node on top of the stack is gone when
its formula is kept (`Settled.node`), so that the stack gives the formula that the recursion gives,
and keeps one for each node (`Numbered.formulaFromStack`). -/

namespace Precond.Constr

/-- With each node that has a formula its parts have one. -/
def Memo.Closed (K : Constr → Prop) (memo : Memo) : Prop :=
  ∀ c, K c → c.id ∈ memo → ∀ d ∈ c.children, d.id ∈ memo

/-- Working off some tasks leads from kept formulas to kept formulas. -/
structure Settled (K : Constr → Prop) (tasks : List Task) (memo memo' : Memo) : Prop where
  sound : memo'.Sound K
  closed : memo'.Closed K
  grows : i ∈ memo → i ∈ memo'
  done : t ∈ tasks → t.node.id ∈ memo'
  work (rest : List Task) : work (tasks ++ rest) memo = work rest memo'

variable {K : Constr → Prop} {c : Constr} {memo memo₁ memo₂ : Memo} {ts us : List Task}

theorem Settled.nil (hs : memo.Sound K) (hc : memo.Closed K) : Settled K [] memo memo :=
  ⟨hs, hc, fun h => h, nofun, fun _ => rfl⟩

theorem Settled.append (h₁ : Settled K ts memo memo₁) (h₂ : Settled K us memo₁ memo₂) :
    Settled K (ts ++ us) memo memo₂ where
  sound := h₂.sound
  closed := h₂.closed
  grows h := h₂.grows (h₁.grows h)
  done := by
    intro t ht
    rcases List.mem_append.mp ht with ht | ht
    · exact h₂.grows (h₁.done ht)
    · exact h₂.done ht
  work rest := by rw [List.append_assoc, h₁.work, h₂.work]

/-- Tasks that can be worked off one by one can be worked off together. -/
theorem Settled.all (hs : memo.Sound K) (hc : memo.Closed K)
    (h : ∀ t ∈ ts, ∀ memo : Memo, memo.Sound K → memo.Closed K →
      ∃ memo', Settled K [t] memo memo') :
    ∃ memo', Settled K ts memo memo' := by
  induction ts generalizing memo with
  | nil => exact ⟨memo, .nil hs hc⟩
  | cons t ts ih =>
    obtain ⟨memo₁, h₁⟩ := h t List.mem_cons_self memo hs hc
    obtain ⟨memo₂, h₂⟩ := ih h₁.sound h₁.closed fun u hu => h u (List.mem_cons_of_mem _ hu)
    exact ⟨memo₂, h₁.append h₂⟩

/-! ### One node -/

theorem extent_le {cs : List Constr} (h : c ∈ cs) : extent c ≤ extents cs := by
  induction cs with
  | nil => cases h
  | cons d ds ih =>
    rw [extents]
    rcases List.mem_cons.mp h with rfl | h
    · exact Nat.le_add_right _ _
    · exact Nat.le_add_left_of_le (ih h)

theorem extent_lt {d : Constr} (h : d ∈ c.children) : extent d < extent c := by
  rw [extent_eq c]
  exact Nat.lt_succ_of_le (extent_le h)

theorem kept_ok (hs : memo.Sound K) (hc : K c) (h : c.id ∈ memo) : kept memo c = c.plain := by
  have hget := Std.HashMap.getElem?_eq_some_getElem h
  rw [kept, hget, hs c _ hc hget]

theorem mapM_kept (hs : memo.Sound K) {cs : List Constr} (hc : ∀ c ∈ cs, K c)
    (h : ∀ c ∈ cs, c.id ∈ memo) : cs.mapM (kept memo) = plains cs := by
  induction cs with
  | nil => rfl
  | cons c cs ih =>
    have hfirst := kept_ok hs (hc c List.mem_cons_self) (h c List.mem_cons_self)
    have hrest := ih (fun d hd => hc d (List.mem_cons_of_mem _ hd))
      fun d hd => h d (List.mem_cons_of_mem _ hd)
    rw [List.mapM_cons, plains, hfirst, hrest]

/-- Where the formulas of its parts are kept, the formula of a node is made of them. -/
theorem Numbered.combine (hK : Numbered K) (hs : memo.Sound K) (hc : K c) (hf : c.Formal)
    (h : ∀ d ∈ c.children, d.id ∈ memo) : combine memo c = c.plain := by
  have hpart : ∀ d ∈ c.children, kept memo d = d.plain := fun d hd =>
    kept_ok hs (hK.children hc hd) (h d hd)
  cases c with
  | goal => rfl
  | clause id hyps goals =>
    have hh : hyps.mapM (kept memo) = plains hyps := mapM_kept hs
      (fun d hd => hK.children hc (List.mem_append_left _ hd))
      fun d hd => h d (List.mem_append_left _ hd)
    have hg : goals.mapM (kept memo) = plains goals := mapM_kept hs
      (fun d hd => hK.children hc (List.mem_append_right _ hd))
      fun d hd => h d (List.mem_append_right _ hd)
    obtain ⟨t, ht⟩ := hf
    rw [plain] at ht
    obtain ⟨hs', hhs, ht⟩ := bind_eq_ok ht
    obtain ⟨gs, hgs, -⟩ := bind_eq_ok ht
    have hempty : hs'.isEmpty = hyps.isEmpty := by
      cases hyps with
      | nil => cases hhs; rfl
      | cons d ds =>
        rw [plains] at hhs
        obtain ⟨u, -, hhs⟩ := bind_eq_ok hhs
        obtain ⟨us, -, hhs⟩ := bind_eq_ok hhs
        cases hhs
        rfl
    rw [Constr.combine, plain, hh, hg, hhs, hgs]
    show (if hyps.isEmpty then .ok (Term.conj gs) else .ok ((Term.conj hs').implies (Term.conj gs))) =
      Except.ok (if hs'.isEmpty then Term.conj gs else (Term.conj hs').implies (Term.conj gs))
    rw [hempty]
    split <;> rfl
  | branch id jump cond yes no =>
    rw [Constr.combine, plain, hpart yes List.mem_cons_self,
      hpart no (List.mem_cons_of_mem _ List.mem_cons_self)]
  | subst id body pairs => rw [Constr.combine, plain, hpart body List.mem_cons_self]

theorem Memo.Sound.insert (hK : Numbered K) (hs : memo.Sound K) (hc : K c) {t : Term .bool}
    (ht : c.plain = .ok t) : Memo.Sound K (memo.insert c.id t) := by
  intro d u hd hu
  rw [Std.HashMap.getElem?_insert] at hu
  split at hu
  · rename_i hid
    cases hu
    cases hK.inj hc hd (eq_of_beq hid)
    exact ht
  · exact hs d u hd hu

theorem Memo.Closed.insert (hK : Numbered K) (hcl : memo.Closed K) (hc : K c)
    (h : ∀ d ∈ c.children, d.id ∈ memo) (t : Term .bool) :
    Memo.Closed K (memo.insert c.id t) := by
  intro d hd hmem e he
  rw [Std.HashMap.mem_insert] at hmem ⊢
  refine .inr ?_
  rcases hmem with hid | hmem
  · cases hK.inj hc hd (eq_of_beq hid)
    exact h e he
  · exact hcl d hd hmem e he

/-- A ready node, all of whose parts have formulas, gets its own. -/
theorem Settled.ready (hK : Numbered K) (hc : K c) (hf : c.Formal) (hs : memo.Sound K)
    (hcl : memo.Closed K) (h : ∀ d ∈ c.children, d.id ∈ memo) :
    ∃ memo', Settled K [⟨c, true⟩] memo memo' := by
  by_cases hmem : c.id ∈ memo
  · refine ⟨memo, hs, hcl, fun h => h, ?_, fun rest => ?_⟩
    · intro t ht
      cases List.mem_singleton.mp ht
      exact hmem
    · rw [List.singleton_append, Constr.work, if_pos (Std.HashMap.contains_iff_mem.mpr hmem)]
  · obtain ⟨t, ht⟩ := hf
    refine ⟨memo.insert c.id t, hs.insert hK hc ht, hcl.insert hK hc h t, ?_, ?_, fun rest => ?_⟩
    · intro i hi
      exact Std.HashMap.mem_insert.mpr (.inr hi)
    · intro u hu
      cases List.mem_singleton.mp hu
      exact Std.HashMap.mem_insert_self
    · rw [List.singleton_append, Constr.work,
        if_neg fun hin => hmem (Std.HashMap.contains_iff_mem.mp hin), if_pos rfl,
        hK.combine hs hc ⟨t, ht⟩ h, ht]

/-- A node on top of the stack is gone when its formula is kept. -/
theorem Settled.node (hK : Numbered K) (hc : K c) (hf : c.Formal) (hs : memo.Sound K)
    (hcl : memo.Closed K) : ∃ memo', Settled K [⟨c, false⟩] memo memo' := by
  -- on the number of nodes, since the parts of a node are tasks of their own
  induction hn : extent c using Nat.strong_induction_on generalizing c memo with
  | _ n ih =>
    subst hn
    by_cases hmem : c.id ∈ memo
    · refine ⟨memo, hs, hcl, fun h => h, ?_, fun rest => ?_⟩
      · intro t ht
        cases List.mem_singleton.mp ht
        exact hmem
      · rw [List.singleton_append, Constr.work, if_pos (Std.HashMap.contains_iff_mem.mpr hmem)]
    have hparts : ∀ t ∈ waiting memo c, ∀ memo : Memo, memo.Sound K → memo.Closed K →
        ∃ memo', Settled K [t] memo memo' := by
      intro t ht memo hs hcl
      obtain ⟨d, hd, rfl⟩ := List.mem_map.mp (List.mem_reverse.mp ht)
      have hd := (List.mem_filter.mp hd).1
      exact ih _ (extent_lt hd) (hK.children hc hd) (hf.child hd) hs hcl rfl
    obtain ⟨memo₁, h₁⟩ := Settled.all hs hcl hparts
    have hdone : ∀ d ∈ c.children, d.id ∈ memo₁ := by
      intro d hd
      by_cases hin : d.id ∈ memo
      · exact h₁.grows hin
      · refine h₁.done (t := ⟨d, false⟩) (List.mem_reverse.mpr (List.mem_map_of_mem ?_))
        simp [hd, hin]
    obtain ⟨memo₂, h₂⟩ := Settled.ready hK hc hf h₁.sound h₁.closed hdone
    refine ⟨memo₂, h₂.sound, h₂.closed, fun hi => h₂.grows (h₁.grows hi), ?_, fun rest => ?_⟩
    · intro t ht
      cases List.mem_singleton.mp ht
      exact h₂.done (t := ⟨c, true⟩) List.mem_cons_self
    · rw [List.singleton_append, Constr.work,
        if_neg fun hin => hmem (Std.HashMap.contains_iff_mem.mp hin), if_neg Bool.false_ne_true,
        h₁.work]
      exact h₂.work rest

/-! ### The formula of a constraint -/

theorem Memo.closed_empty (K : Constr → Prop) : Memo.Closed K {} := by
  intro c _ h
  exact absurd h Std.HashMap.not_mem_empty

theorem Memo.Closed.part (hK : Numbered K) (hcl : memo.Closed K) (hc : K c) (h : c.id ∈ memo)
    {d : Constr} (hd : Part c d) : K d ∧ d.id ∈ memo := by
  induction hd with
  | refl => exact ⟨hc, h⟩
  | tail _ he ih => exact ⟨hK.children ih.1 he, hcl _ ih.1 ih.2 _ he⟩

/-- The stack gives the formula that the recursion gives, and keeps the formula of each node. -/
theorem Numbered.formulaFromStack (hK : Numbered K) (hc : K c) {t : Term .bool}
    (ht : c.plain = .ok t) : ∃ memo, c.formulaFromStack = .ok (t, memo) ∧
      ∀ d, Part c d → ∃ u, memo[d.id]? = some u ∧ d.plain = .ok u := by
  obtain ⟨memo, h⟩ := Settled.node hK hc ⟨t, ht⟩ (Memo.sound_empty K) (Memo.closed_empty K)
  have hmem : c.id ∈ memo := h.done (t := ⟨c, false⟩) List.mem_cons_self
  have hwork : Constr.work [⟨c, false⟩] {} = .ok memo := by
    have hw := h.work []
    rw [List.append_nil, Constr.work] at hw
    exact hw
  refine ⟨memo, ?_, ?_⟩
  · rw [Constr.formulaFromStack, hwork]
    show (do return (← kept memo c, memo)) = _
    rw [kept_ok h.sound hc hmem, ht]
    rfl
  · intro d hd
    obtain ⟨hKd, hdm⟩ := h.closed.part hK hc hmem hd
    have hget := Std.HashMap.getElem?_eq_some_getElem hdm
    exact ⟨_, hget, h.sound d _ hKd hget⟩

end Precond.Constr
