import Precond.Proofs.Run.Sub

/-! Subroutines whose jumps all have a way, and runs of them. Where jumps lead to blocks of their
own subroutine only, runs do not stray (`Runs.returned`). -/

namespace Precond.IR

open Relation

def Way.callee? : Way → Option String
  | .call f _ => some f
  | .goto _ | .out => none

/-- No phis, and jumps with ways on to names of a class. -/
def Sub.simple (own : String → Bool) (s : Sub) : Bool :=
  s.blks.all fun b => b.phis.isEmpty && b.jumps.all fun j => j.way?.any fun way => way.next?.all own

/-- Control goes on at blocks of the subroutine only. -/
def Sub.closed (s : Sub) : Bool := s.simple (s.blks.map Blk.tid).contains

/-- No jump is a call. -/
def Sub.callFree (s : Sub) : Bool :=
  s.blks.all fun b => b.jumps.all fun j => (j.way?.bind Way.callee?).isNone

variable {own : String → Bool} {s : Sub} {b : Blk} {j : Jump}

theorem Sub.simple_phis (h : s.simple own) (hb : b ∈ s.blks) : b.phis = [] :=
  List.isEmpty_iff.mp (Bool.and_eq_true_iff.mp (List.all_eq_true.mp h b hb)).1

theorem Sub.simple_jumps (h : s.simple own) (hb : b ∈ s.blks) (hj : j ∈ b.jumps) :
    ∃ way, j.way? = some way ∧ ∀ t, way.next? = some t → own t := by
  have hjs := (Bool.and_eq_true_iff.mp (List.all_eq_true.mp h b hb)).2
  obtain ⟨way, hway, hnext⟩ := (Option.any_eq_true ..).mp (List.all_eq_true.mp hjs j hj)
  exact ⟨way, hway, fun t ht => by rw [ht] at hnext; exact hnext⟩

theorem Sub.callFree_way? (h : s.callFree) (hb : b ∈ s.blks) (hj : j ∈ b.jumps) (f : String)
    (back : Option String) : j.way? ≠ some (.call f back) := by
  intro hway
  have hn := List.all_eq_true.mp (List.all_eq_true.mp h b hb) j hj
  rw [hway] at hn
  cases hn

/-- Nothing is called from a subroutine without calls. -/
theorem Sub.callFree_calls (h : s.callFree) (hc : ReflTransGen (Sub.Calls subs) s c) : c = s := by
  rcases hc.cases_head with rfl | ⟨d, hd, -⟩
  · rfl
  · obtain ⟨b, j, hb, hj, hway, -⟩ := hd
    exact absurd hway (callFree_way? h hb hj _ _)

theorem Sub.known_below (h : s.callFree) (hk : s.known) : s.KnownBelow subs :=
  fun _ hc => callFree_calls h hc ▸ hk

theorem mem_of_follow {bs : List Blk} (h : (b, some t) ∈ follow bs) : t ∈ bs.map Blk.tid := by
  induction bs with
  | nil => cases h
  | cons c bs ih =>
    cases bs with
    | nil => cases List.mem_singleton.mp h
    | cons d rest =>
      rcases List.mem_cons.mp h with h | h
      · cases h
        exact List.mem_cons_of_mem _ List.mem_cons_self
      · exact List.mem_cons_of_mem _ (ih h)

theorem Sub.at?_entry (h : s.first? = some e) : (s.at? e).isSome := by
  refine at?_isSome ?_
  rw [first?] at h
  obtain ⟨b, hb, rfl⟩ := Option.map_eq_some_iff.mp h
  exact List.mem_map_of_mem (List.mem_of_head? hb)

theorem Enters.at? (h : Enters subs f c e) : (c.at? e).isSome := by
  cases h with
  | mk _ he => exact Sub.at?_entry he

theorem Sub.Leaves.next (hs : s.closed) (hl : s.Leaves t σ way σ') (hx : way.next? = some x) :
    (s.at? x).isSome := by
  cases hl with
  | mk hb hl =>
    cases hl with
    | jump _ ht hway =>
      obtain ⟨way', hway', hnext⟩ := simple_jumps hs (mem_of_at? hb).1 ht.mem
      cases hway'.symm.trans hway
      exact at?_isSome (List.contains_iff_mem.mp (hnext x hx))
    | next =>
      cases hx
      exact at?_isSome (mem_of_follow (List.mem_reverse.mp (List.mem_of_find?_eq_some hb)))
    | last => cases hx

/-- Where control goes on at blocks of the own subroutine only, a run that ends returns. -/
theorem Runs.returned (hs : ∀ c, ReflTransGen (Sub.Calls subs) s c → c.closed)
    (ht : (s.at? t).isSome) (h : Runs subs s t σ trace o) : ∃ σ', o = .returned σ' := by
  induction h with
  | stray hn =>
    rw [hn] at ht
    cases ht
  | out => exact ⟨_, rfl⟩
  | goto hl _ ih => exact ih hs (hl.next (hs _ .refl) rfl)
  | tail hl he _ ih => exact ih (fun d hd => hs d (.head (hl.calls he) hd)) he.at?
  | call hl _ _ _ _ ih => exact ih hs (hl.next (hs _ .refl) rfl)
  | lost hl he _ ih =>
    obtain ⟨σ', ho⟩ := ih (fun d hd => hs d (.head (hl.calls he) hd)) he.at?
    cases ho

/-! ### The run of a subroutine -/

/-- The run of a subroutine from its entry, the only one there is, ends in a state. -/
structure Sub.Ends (subs : List Sub) (s : Sub) (σ σ' : Store) : Prop where
  run : ∃ e trace, s.first? = some e ∧ Runs subs s e σ trace (.returned σ')
  only : s.first? = some e → Runs subs s e σ trace o → o = .returned σ'

theorem Runs.ends (hk : s.KnownBelow subs) (he : s.first? = some e)
    (h : Runs subs s e σ trace (.returned σ')) : s.Ends subs σ σ' where
  run := ⟨e, trace, he, h⟩
  only he' h' := by
    cases he.symm.trans he'
    exact (h'.unique hk h).2

theorem Sub.Ends.unique (h : s.Ends subs σ σ₁) (h' : s.Ends subs σ σ₂) : σ₁ = σ₂ := by
  obtain ⟨e, trace, he, hr⟩ := h.run
  exact Outcome.returned.inj (h'.only he hr)

/-- Some run of a subroutine from its entry goes on at what is no block. -/
inductive Sub.Strays (subs : List Sub) (s : Sub) (σ : Store) : Prop
  | mk : s.first? = some e → Runs subs s e σ trace (.strayed u) → s.Strays subs σ

theorem Sub.Ends.not_strays (h : s.Ends subs σ σ') : ¬ s.Strays subs σ := by
  rintro ⟨he, hr⟩
  cases h.only he hr

end Precond.IR
