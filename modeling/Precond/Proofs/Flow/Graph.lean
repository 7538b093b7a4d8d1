import Precond.Flow.Graph
import Precond.Proofs.Run.Store
import Precond.Proofs.Run.Sub

/-! The control-flow graph of a subroutine against the subroutine. The tables of the graph tell of a
name what the block of that name is (`Flow.Graph.of_ofSub`), and a jump to a block of the subroutine
leads to a successor (`Flow.Graph.Of.mem_succsOf_of_jump`). Back edges close cycles, so that a graph
without cycles has none (`Flow.Graph.Acyclic.isBackEdge`). -/

namespace Precond

open IR Relation

namespace Table

variable {β κ α : Type} [DecidableEq κ]

/-- Of several entries for one key that are put one after the other the last counts. -/
theorem lookup_foldl_put (f : β → κ) (g : β → α) (l : List β) (t : Table κ α) (k : κ) :
    (l.foldl (fun t e => t.put (f e) (g e)) t).lookup k =
      ((l.reverse.find? fun e => f e == k).map g).or (t.lookup k) := by
  induction l generalizing t with
  | nil => rfl
  | cons e l ih =>
    rw [List.foldl_cons, ih, List.reverse_cons, List.find?_append]
    by_cases h : f e = k
    · rw [h, lookup_put_self, List.find?_singleton, if_pos (beq_iff_eq.mpr h)]
      cases l.reverse.find? fun e => f e == k <;> rfl
    · rw [lookup_put_of_ne _ _ (Ne.symm h), List.find?_singleton, if_neg (by simpa using h),
        Option.or_none]

theorem mem_of_lookup {t : Table κ α} {key : κ} {a : α} (h : t.lookup key = some a) :
    (key, a) ∈ t := by
  obtain ⟨t₁, t₂, rfl, -⟩ := List.lookup_eq_some_iff.mp h
  exact List.mem_append_right _ List.mem_cons_self

theorem mem_keys_iff {t : Table κ α} {key : κ} : key ∈ t.keys ↔ (t.lookup key).isSome := by
  rw [List.lookup_isSome_iff, keys, List.mem_map]
  constructor
  · rintro ⟨e, he, rfl⟩
    exact ⟨e, he, beq_self_eq_true _⟩
  · rintro ⟨e, he, hk⟩
    exact ⟨e, he, (eq_of_beq hk).symm⟩

end Table

theorem IR.Takes.fallsThrough {b : Blk} (h : Takes σ b.jumps none) :
    Flow.fallsThrough b = true := by
  unfold Flow.fallsThrough
  split
  · rfl
  · rename_i j hj
    exact decide_eq_true (h.cond_ne_always (List.mem_of_getLast? hj))

/-- Control goes on where the jump names it. -/
theorem Flow.Jump.target?_of_way {j : Jump} {way : Way} (h : j.way? = some way)
    (hx : way.next? = some x) : Flow.Jump.target? j = some x := by
  unfold Jump.way? at h
  unfold Flow.Jump.target?
  split at h <;> cases h <;> cases hx <;> rename_i hk <;> rw [hk]

namespace Flow

/-! ### Back edges -/

namespace Search

theorem visit_back {succs : String → List String} {E : String → String → Prop}
    (hE : ∀ a, ∀ b ∈ succs a, E a b) (fuel : Nat) (path : List String) (node : String) (s : State)
    (hpath : ∀ p ∈ path, ReflTransGen E p node) :
    ∀ e ∈ (visit succs fuel path node s).back, e ∈ s.back ∨ E e.1 e.2 ∧ ReflTransGen E e.2 e.1 := by
  induction fuel generalizing path node s with
  | zero => exact fun e he => .inl he
  | succ fuel ih =>
    rw [visit]
    have hchildren : ∀ c ∈ succs node, E node c := hE node
    generalize succs node = children at hchildren
    induction children generalizing s with
    | nil => exact fun e he => .inl he
    | cons c rest ihrest =>
      intro e he
      rw [List.foldl_cons] at he
      rcases ihrest _ (fun d hd => hchildren d (List.mem_cons_of_mem _ hd)) e he with he | he
      · have hc := hchildren c List.mem_cons_self
        split at he
        · rename_i hin
          rcases List.mem_cons.mp he with rfl | he
          · exact .inr ⟨hc, hpath c (List.contains_iff_mem.mp hin)⟩
          · exact .inl he
        split at he
        · exact .inl he
        · refine (ih _ _ _ (fun p hp => ?_) e he).imp_left fun h => h
          rcases List.mem_cons.mp hp with rfl | hp
          · exact .refl
          · exact (hpath p hp).tail hc
      · exact .inr he

end Search

/-- A back edge closes a cycle. -/
theorem findBackEdges_closes {succs : String → List String} {blocks : Nat} {entry : String}
    {e : String × String} (h : e ∈ findBackEdges succs blocks entry) :
    e.2 ∈ succs e.1 ∧ ReflTransGen (fun a b => b ∈ succs a) e.2 e.1 := by
  refine (Search.visit_back (fun _ _ hb => hb) _ _ _ _ (fun p hp => ?_) e h).resolve_left
    fun he => nomatch he
  cases List.mem_singleton.mp hp
  exact .refl

/-! ### Loops -/

theorem subset_gather (preds : String → List String) (header : String) (fuel : Nat)
    (work body : List String) : body ⊆ gather preds header fuel work body := by
  induction fuel generalizing work body with
  | zero => exact List.Subset.refl _
  | succ fuel ih =>
    cases work with
    | nil => exact List.Subset.refl _
    | cons node work =>
      rw [gather]
      split
      · exact ih ..
      · exact List.Subset.trans (List.subset_append_left ..) (ih ..)

theorem header_mem_naturalLoop (preds : String → List String) (blocks : Nat)
    (latch header : String) : header ∈ naturalLoop preds blocks latch header :=
  subset_gather _ _ _ _ _ (List.mem_eraseDups.mpr List.mem_cons_self)

theorem foldl_addLoop (preds : String → List String) (blocks : Nat) (edges : List (String × String))
    (loops : Table String (List String)) (h : String)
    (hh : (∃ e ∈ edges, e.2 = h) ∨ ∃ body, loops.lookup h = some body ∧ h ∈ body) :
    ∃ body, (edges.foldl (Graph.addLoop preds blocks) loops).lookup h = some body ∧ h ∈ body := by
  induction edges generalizing loops with
  | nil => exact hh.resolve_left fun ⟨e, he, _⟩ => nomatch he
  | cons e edges ih =>
    rw [List.foldl_cons]
    refine ih _ ?_
    by_cases he : e.2 = h
    · refine .inr ⟨_, by rw [Graph.addLoop, he, Table.lookup_put_self], ?_⟩
      exact List.mem_eraseDups.mpr (List.mem_append_right _ (header_mem_naturalLoop ..))
    · rw [Graph.addLoop, Table.lookup_put_of_ne _ _ (Ne.symm he)]
      refine hh.imp_left ?_
      rintro ⟨e', he', rfl⟩
      rcases List.mem_cons.mp he' with rfl | he'
      · exact absurd rfl he
      · exact ⟨e', he', rfl⟩

/-- The block that control may run into behind a block. -/
def behind? (p : Blk × Option String) : Option String := if fallsThrough p.1 then p.2 else none

theorem fallthroughs_eq (bs : List Blk) :
    fallthroughs bs = (follow bs).map fun p => (p.1, behind? p) := by
  induction bs with
  | nil => rfl
  | cons b bs ih =>
    cases bs with
    | nil => simp [fallthroughs, follow, behind?]
    | cons c rest =>
      rw [fallthroughs, follow, List.map_cons, ih]
      rfl

namespace Graph

/-- What the tables of a graph tell of a subroutine. -/
structure Of (s : Sub) (g : Graph) : Prop where
  entry : s.first? = some g.entry
  blocks (t : String) : g.blocks.lookup t = (s.at? t).map (·.1)
  fallthrough (t : String) : g.fallthrough.lookup t = (s.at? t).map behind?
  succsOf (t : String) : g.succsOf t =
    ((s.at? t).map fun p => targets g.blocks p.1 (behind? p)).getD []
  back : g.isBackEdge a b → b ∈ g.succsOf a ∧ ReflTransGen (fun a b => b ∈ g.succsOf a) b a
  header : g.isBackEdge a b → b ∈ g.loopOf b

/-- What comes from the blocks one by one into a table is found under the name of the block. -/
theorem lookup_follow {β α : Type} (s : Sub) (f : Blk × Option String → β) (k : β → String)
    (v : β → α) (hk : ∀ p, k (f p) = p.1.tid) (t : String) :
    (((follow s.blks).map f).foldl (fun t e => Table.put t (k e) (v e)) []).lookup t =
      (s.at? t).map fun p => v (f p) := by
  rw [Table.lookup_foldl_put, List.lookup_nil, Option.or_none, ← List.map_reverse, List.find?_map,
    Option.map_map, Sub.at?]
  refine congrArg (fun q => ((follow s.blks).reverse.find? q).map _) (funext fun p => ?_)
  exact congrArg (· == t) (hk p)

theorem of_ofSub {s : Sub} {g : Graph} (h : ofSub s = .ok g) : g.Of s := by
  unfold ofSub at h
  split at h
  · cases h
  rename_i first rest hblks
  cases h
  refine ⟨?_, fun t => ?_, fun t => ?_, fun t => ?_, fun hab => ?_, fun hab => ?_⟩
  · rw [Sub.first?, hblks]
    rfl
  · have hb := lookup_follow s (·.1) (·.tid) id (fun _ => rfl) t
    rw [follow_fst] at hb
    exact hb
  · have hf := lookup_follow s (fun p => (p.1, behind? p)) (·.1.tid) (·.2) (fun _ => rfl) t
    rw [← fallthroughs_eq] at hf
    exact hf
  · dsimp only [succsOf]
    rw [fallthroughs_eq, List.map_map]
    exact congrArg (Option.getD · []) (lookup_follow s
      (fun p => (p.1.tid, targets (s.blks.foldl (fun t (b : Blk) => Table.put t b.tid b) []) p.1
        (behind? p))) (·.1) (·.2) (fun _ => rfl) t)
  · exact findBackEdges_closes (List.contains_iff_mem.mp hab)
  · obtain ⟨body, hl, hb⟩ := foldl_addLoop _ _ _ [] _ (.inl ⟨_, List.contains_iff_mem.mp hab, rfl⟩)
    rw [loopOf, hl]
    exact hb

variable {s : Sub} {g : Graph}

theorem Of.mem_keys (hg : g.Of s) : t ∈ g.blocks.keys ↔ (s.at? t).isSome := by
  rw [Table.mem_keys_iff, hg.blocks, Option.isSome_map]

theorem Of.tid_of_lookup {b : Blk} (hg : g.Of s) (h : g.blocks.lookup t = some b) : b.tid = t := by
  rw [hg.blocks, Option.map_eq_some_iff] at h
  obtain ⟨p, hp, rfl⟩ := h
  exact (Sub.mem_of_at? hp).2

/-- A jump to a block of the subroutine leads to a successor. -/
theorem Of.mem_succsOf_of_jump {b : Blk} {n : Option String} (hg : g.Of s)
    (h : s.at? t = some (b, n)) {j : Jump} (hj : j ∈ b.jumps) (hu : Jump.target? j = some u)
    (hs : (s.at? u).isSome) : u ∈ g.succsOf t := by
  rw [hg.succsOf, h]
  refine List.mem_eraseDups.mpr (List.mem_filter.mpr ⟨?_, List.contains_iff_mem.mpr ?_⟩)
  · exact List.mem_append_left _ (List.mem_filterMap.mpr ⟨j, hj, hu⟩)
  · exact hg.mem_keys.mpr hs

/-! ### Graphs without cycles -/

/-- No block reaches itself. -/
def Acyclic (g : Graph) : Prop := ∀ t, ¬ TransGen (fun a b => b ∈ g.succsOf a) t t

/-- A graph whose edges go down has no cycles. -/
theorem Acyclic.of_rank (rank : String → Nat)
    (h : ∀ e ∈ g.succs, ∀ b ∈ e.2, rank b < rank e.1) : g.Acyclic := by
  have hstep : ∀ a b, b ∈ g.succsOf a → rank b < rank a := by
    intro a b hb
    rw [succsOf] at hb
    cases hl : g.succs.lookup a with
    | none => rw [hl] at hb; cases hb
    | some bs =>
      rw [hl] at hb
      exact h _ (Table.mem_of_lookup hl) b hb
  intro t ht
  have hdown : TransGen (· > ·) (rank t) (rank t) := ht.lift rank hstep
  rw [transGen_eq_self] at hdown
  exact Nat.lt_irrefl _ hdown

theorem Acyclic.isBackEdge (h : g.Acyclic) (hg : g.Of s) (a b : String) :
    g.isBackEdge a b = false :=
  Bool.eq_false_iff.mpr fun hab => h b (TransGen.tail' (hg.back hab).2 (hg.back hab).1)

/-! ### Graphs of one and of two blocks -/

/-- The graph of a subroutine with one block, which leads to none. -/
def lone (s : Sub) (b : Blk) : Graph where
  sub := s
  entry := b.tid
  blocks := [(b.tid, b)]
  succs := [(b.tid, [])]
  preds := [(b.tid, [])]
  fallthrough := [(b.tid, none)]
  backEdges := []
  loops := []

/-- The graph of a subroutine with one block, which leads to itself. -/
def lap (s : Sub) (b : Blk) : Graph where
  sub := s
  entry := b.tid
  blocks := [(b.tid, b)]
  succs := [(b.tid, [b.tid])]
  preds := [(b.tid, [b.tid])]
  fallthrough := [(b.tid, none)]
  backEdges := [(b.tid, b.tid)]
  loops := [(b.tid, [b.tid])]

/-- The graph of a subroutine with two blocks, the first of which leads to the second. -/
def chain (s : Sub) (a b : Blk) : Graph where
  sub := s
  entry := a.tid
  blocks := [(a.tid, a), (b.tid, b)]
  succs := [(a.tid, [b.tid]), (b.tid, [])]
  preds := [(a.tid, []), (b.tid, [a.tid])]
  fallthrough := [(a.tid, none), (b.tid, none)]
  backEdges := []
  loops := []

theorem ofSub_lone {b : Blk} (hs : s.blks = [b]) (ht : targets [(b.tid, b)] b none = []) :
    ofSub s = .ok (lone s b) := by
  simp [ofSub, hs, lone, fallthroughs, Table.put, Table.keys, ht, findBackEdges, Search.visit]

theorem ofSub_lap {b : Blk} (hs : s.blks = [b]) (ht : targets [(b.tid, b)] b none = [b.tid]) :
    ofSub s = .ok (lap s b) := by
  simp [ofSub, hs, lap, fallthroughs, Table.put, Table.keys, Table.adjust, ht, findBackEdges,
    Search.visit, addLoop, naturalLoop, gather, List.eraseDups_cons]

theorem ofSub_chain {a b : Blk} (hs : s.blks = [a, b]) (hne : a.tid ≠ b.tid)
    (hf : fallsThrough a = false) (ha : targets [(a.tid, a), (b.tid, b)] a none = [b.tid])
    (hb : targets [(a.tid, a), (b.tid, b)] b none = []) : ofSub s = .ok (chain s a b) := by
  simp [ofSub, hs, chain, fallthroughs, Table.put, Table.keys, Table.adjust, hne, hne.symm, hf, ha, hb,
    findBackEdges, Search.visit, List.lookup_cons, beq_false_of_ne hne.symm]

end Graph

end Flow

end Precond
