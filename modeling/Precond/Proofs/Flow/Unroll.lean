import Precond.Flow.Graph
import Precond.Proofs.Flow.Graph

/-! Unrolling contexts against runs. Along a run, the context counts for each header the laps of its
loop: how many back edges into the header have been taken since the loop was last left
(`Graph.laps`). A run that stays within the unroll bound is nowhere cut
(`Graph.Within.not_overruns`). -/

namespace Precond.Flow

namespace Unroll

theorem count_cons (e : String × Nat) (u : Unroll) (h : String) :
    count (e :: u) h = if h = e.1 then e.2 else count u h := by
  obtain ⟨k, n⟩ := e
  rw [count, List.lookup_cons]
  by_cases hk : h = k
  · rw [if_pos hk, beq_iff_eq.mpr hk]
    rfl
  · rw [if_neg hk, beq_false_of_ne hk]
    rfl

theorem count_withCount (u : Unroll) (h : String) (n : Nat) (k : String) :
    (u.withCount h n).count k = if k = h then n else u.count k := by
  induction u with
  | nil => rw [withCount, count_cons]
  | cons e rest ih =>
    rw [withCount]
    split
    · rename_i he
      rw [count_cons, count_cons, he]
      split <;> rfl
    split
    · rw [count_cons]
    · rename_i hne _
      rw [count_cons, count_cons, ih]
      split
      · rename_i hk
        rw [if_neg fun hkh => hne (hk.symm.trans hkh)]
      · rfl

/-- The counts of a context, one for each header, are positive and stay below a bound. -/
structure Tidy (bound : Int) (u : Unroll) : Prop where
  sorted : u.Pairwise fun e e' => e.1 < e'.1
  counts : ∀ e ∈ u, 1 ≤ e.2 ∧ (e.2 : Int) ≤ bound - 1

variable {bound : Int} {u : Unroll} {header : String} {n : Nat}

theorem Tidy.nil : Tidy bound [] := ⟨.nil, nofun⟩

theorem mem_withCount {e : String × Nat} (h : e ∈ u.withCount header n) :
    e = (header, n) ∨ e ∈ u := by
  induction u with
  | nil => exact .inl (List.mem_singleton.mp h)
  | cons a u ih =>
    rw [withCount] at h
    split at h
    · exact (List.mem_cons.mp h).imp_right (List.mem_cons_of_mem a)
    split at h
    · exact List.mem_cons.mp h
    · rcases List.mem_cons.mp h with rfl | h
      · exact .inr List.mem_cons_self
      · exact (ih h).imp_right (List.mem_cons_of_mem a)

theorem sorted_withCount (hu : u.Pairwise fun e e' => e.1 < e'.1) :
    (u.withCount header n).Pairwise fun e e' => e.1 < e'.1 := by
  induction u with
  | nil => exact List.pairwise_singleton ..
  | cons a u ih =>
    obtain ⟨ha, hrest⟩ := List.pairwise_cons.mp hu
    rw [withCount]
    split
    · rename_i heq
      exact List.pairwise_cons.mpr ⟨fun e he => heq ▸ ha e he, hrest⟩
    split
    · rename_i hlt
      refine List.pairwise_cons.mpr ⟨List.forall_mem_cons.mpr ⟨hlt, fun e he => ?_⟩, hu⟩
      exact String.lt_trans hlt (ha e he)
    · rename_i hne hge
      refine List.pairwise_cons.mpr ⟨fun e he => ?_, ih hrest⟩
      rcases mem_withCount he with rfl | he
      · exact Std.lt_of_le_of_ne (String.not_lt.mp hge) hne
      · exact ha e he

theorem Tidy.withCount (hu : u.Tidy bound) (hpos : 1 ≤ n) (hn : (n : Int) ≤ bound - 1) :
    (u.withCount header n).Tidy bound := by
  refine ⟨sorted_withCount hu.sorted, fun e he => ?_⟩
  rcases mem_withCount he with rfl | he
  · exact ⟨hpos, hn⟩
  · exact hu.counts e he

end Unroll

namespace Graph

variable (g : Graph)

theorem count_restrict (u : Unroll) (t h : String) :
    (g.restrict u t).count h = if t ∈ g.loopOf h then u.count h else 0 := by
  induction u with
  | nil => exact (ite_self 0).symm
  | cons e rest ih =>
    rw [restrict, List.filter_cons, Unroll.count_cons]
    by_cases he : h = e.1
    · subst he
      rw [if_pos rfl]
      by_cases ht : t ∈ g.loopOf e.1
      · rw [if_pos (List.contains_iff_mem.mpr ht), Unroll.count_cons, if_pos rfl, if_pos ht]
      · rw [if_neg fun hc => ht (List.contains_iff_mem.mp hc)]
        rw [if_neg ht] at ih ⊢
        exact ih
    · rw [if_neg he]
      split
      · rw [Unroll.count_cons, if_neg he]
        exact ih
      · exact ih

/-- The context of the copy of a block that control comes to along an edge. -/
def along (u : Unroll) (a b : String) : Unroll :=
  g.restrict (if g.isBackEdge a b then u.withCount b (u.count b + 1) else u) b

theorem count_along (u : Unroll) (a b h : String) : (g.along u a b).count h =
    if b ∈ g.loopOf h then u.count h + (if g.isBackEdge a b ∧ b = h then 1 else 0) else 0 := by
  rw [along, count_restrict]
  refine if_congr Iff.rfl ?_ rfl
  by_cases hb : g.isBackEdge a b
  · rw [if_pos hb, Unroll.count_withCount]
    by_cases hh : h = b
    · rw [if_pos hh, if_pos ⟨hb, hh.symm⟩, hh]
    · rw [if_neg hh, if_neg fun hc => hh hc.2.symm, Nat.add_zero]
  · rw [if_neg hb, if_neg fun hc => hb hc.1, Nat.add_zero]

/-- Some back edge on the way is taken once more than the bound allows. -/
inductive Overruns (bound : Int) : Unroll → List String → Prop
  | here : g.isBackEdge a b → bound ≤ u.count b + 1 → Overruns bound u (a :: b :: rest)
  | later : Overruns bound (g.along u a b) (b :: rest) → Overruns bound u (a :: b :: rest)

/-- How many times control has come back to a header since it was last outside the loop; the blocks
that have been visited are given with the latest one first. -/
def laps (h : String) : List String → Nat
  | b :: a :: past =>
    if b ∈ g.loopOf h then laps h (a :: past) + (if g.isBackEdge a b ∧ b = h then 1 else 0) else 0
  | _ => 0

/-- At every moment of a run each header has been come back to less often than the bound says; a
bound below one is as good as one. -/
def Within (bound : Int) (trace : List String) : Prop :=
  ∀ past h, past <+: trace → (g.laps h past.reverse : Int) ≤ max bound 1 - 1

variable {g}

theorem count_along_laps {u : Unroll} {past : List String} {a : String}
    (hu : ∀ h, u.count h = g.laps h (a :: past)) (b h : String) :
    (g.along u a b).count h = g.laps h (b :: a :: past) := by
  rw [count_along, laps, hu]

/-- Where a way overruns, some header has been come back to too often. -/
theorem Overruns.laps {s : IR.Sub} (hg : g.Of s) {bound : Int} (h : g.Overruns bound u trace) :
    ∀ past a rest, trace = a :: rest → (∀ h, u.count h = g.laps h (a :: past)) →
      ∃ more h, more <+: rest ∧ max bound 1 ≤ g.laps h (more.reverse ++ a :: past) := by
  induction h with
  | @here _ b _ _ hb hu =>
    rintro past a rest ⟨⟩ hcount
    refine ⟨[b], b, List.prefix_cons_iff.mpr (.inr ⟨[], rfl, List.nil_prefix⟩), ?_⟩
    rw [List.reverse_singleton, List.singleton_append, Graph.laps, if_pos (hg.header hb),
      if_pos ⟨hb, rfl⟩, ← hcount]
    omega
  | later _ ih =>
    rintro past a rest ⟨⟩ hcount
    obtain ⟨more, h, hm, hl⟩ := ih (_ :: past) _ _ rfl (count_along_laps hcount _)
    refine ⟨_ :: more, h, List.cons_prefix_cons.mpr ⟨rfl, hm⟩, ?_⟩
    rw [List.reverse_cons, List.append_assoc]
    exact hl

theorem Within.not_overruns {s : IR.Sub} (hg : g.Of s) {bound : Int} {trace past : List String}
    (hw : g.Within bound trace) (hp : past <+: trace) : ¬ g.Overruns bound [] past := by
  intro h
  cases past with
  | nil => cases h
  | cons a rest =>
    obtain ⟨more, k, hm, hl⟩ := h.laps hg [] a rest rfl fun _ => rfl
    have hle := hw (a :: more) k ((List.cons_prefix_cons.mpr ⟨rfl, hm⟩).trans hp)
    rw [List.reverse_cons] at hle
    omega

theorem Acyclic.not_overruns {s : IR.Sub} (h : g.Acyclic) (hg : g.Of s) {bound : Int}
    {u : Unroll} {trace : List String} : ¬ g.Overruns bound u trace := by
  intro ho
  induction ho with
  | here hb => rw [h.isBackEdge hg] at hb; cases hb
  | later _ ih => exact ih

end Graph

end Precond.Flow
