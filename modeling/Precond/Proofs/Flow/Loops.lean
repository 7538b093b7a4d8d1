import Mathlib.Data.List.Nodup
import Mathlib.Data.List.Perm.Subperm
import Mathlib.Logic.Relation
import Precond.Flow.Graph
import Precond.Proofs.Flow.Graph

/-! The depth-first search for back edges. The search enters each block once, so that as many levels
as there are blocks are enough (`findBackEdges_add`). An edge out of a block that is left leads to
a block that has been left before, or it is a back edge; so the blocks that are reached have a rank
that goes down along all other edges (`findBackEdges_rank`). The search is below the entry all the
time, so that what leads back to it is a back edge (`mem_findBackEdges_entry`).

The loops of a subroutine. The loop of a header holds the sources of its back edges and, with
each of its blocks but the header, the predecessors (`Graph.Looped`). The searches that find back
edges and loops enter each block at most once, so that they are nowhere cut short
(`Graph.searches_end`). -/

namespace Precond.Flow

open Relation

namespace Search

/-- Blocks that have been left, the latest first: each edge out of one is a back edge or leads to
one that was left before. -/
def Left (succs : String → List String) (back : List (String × String)) : List String → Prop
  | [] => True
  | u :: left => (∀ v ∈ succs u, (u, v) ∈ back ∨ v ∈ left) ∧ Left succs back left

/-- What the search knows: the blocks on the path and those it has left. -/
structure Knows (succs : String → List String) (path left : List String) (s : State) : Prop where
  visited : x ∈ s.visited ↔ x ∈ path ∨ x ∈ left
  apart : x ∈ path → x ∉ left
  back : e ∈ s.back → e.2 ∈ path ∨ e.2 ∈ left
  edges : Left succs s.back left

variable {succs : String → List String} {path left : List String} {node child : String}
  {s : State} {fuel : Nat}

theorem Left.mono {back back' : List (String × String)} (h : back ⊆ back')
    (hl : Left succs back left) : Left succs back' left := by
  induction left with
  | nil => trivial
  | cons u left ih => exact ⟨fun v hv => (hl.1 v hv).imp_left fun he => h he, ih hl.2⟩

/-- What the search does with a successor of a block. -/
def step (succs : String → List String) (fuel : Nat) (path : List String) (node : String)
    (s : State) (child : String) : State :=
  if path.contains child then { s with back := (node, child) :: s.back }
  else if s.visited.contains child then s
  else visit succs fuel (child :: path) child { s with visited := child :: s.visited }

theorem visit_succ : visit succs (fuel + 1) path node s =
    (succs node).foldl (step succs fuel path node) s := rfl

/-- The search goes on from one state to another and has seen edges of a block. -/
structure Onward (succs : String → List String) (path : List String) (node : String)
    (children : List String) (left left' : List String) (s s' : State) : Prop where
  knows : Knows succs path left' s'
  left : left ⊆ left'
  back : s.back ⊆ s'.back
  seen : v ∈ children → (node, v) ∈ s'.back ∨ v ∈ left'

theorem Onward.cons {children left₁ left₂ : List String} {s₁ s₂ : State}
    (h₁ : Onward succs path node [child] left left₁ s s₁)
    (h₂ : Onward succs path node children left₁ left₂ s₁ s₂) :
    Onward succs path node (child :: children) left left₂ s s₂ where
  knows := h₂.knows
  left := List.Subset.trans h₁.left h₂.left
  back := List.Subset.trans h₁.back h₂.back
  seen hv := by
    rcases List.mem_cons.mp hv with rfl | hv
    · rcases h₁.seen List.mem_cons_self with he | hl
      · exact .inl (h₂.back he)
      · exact .inr (h₂.left hl)
    · exact h₂.seen hv

/-- The child of a block is on the path, or it has been left, or it is entered. -/
theorem Knows.step (h : Knows succs path left s)
    (henter : child ∉ path → child ∉ left → ∃ left',
      Onward succs (child :: path) child (succs child) left left'
        { s with visited := child :: s.visited }
        (visit succs fuel (child :: path) child { s with visited := child :: s.visited })) :
    ∃ left', Onward succs path node [child] left left' s (step succs fuel path node s child) := by
  unfold Search.step
  by_cases hpath : child ∈ path
  · rw [if_pos (List.contains_iff_mem.mpr hpath)]
    have hback : s.back ⊆ (node, child) :: s.back := List.subset_cons_self ..
    refine ⟨left, ⟨h.visited, h.apart, fun he => ?_, h.edges.mono hback⟩, List.Subset.refl _, hback,
      fun hv => ?_⟩
    · rcases List.mem_cons.mp he with rfl | he
      · exact .inl hpath
      · exact h.back he
    · cases List.mem_singleton.mp hv
      exact .inl List.mem_cons_self
  rw [if_neg fun hc => hpath (List.contains_iff_mem.mp hc)]
  by_cases hvisited : child ∈ s.visited
  · rw [if_pos (List.contains_iff_mem.mpr hvisited)]
    have hleft : child ∈ left := (h.visited.mp hvisited).resolve_left hpath
    refine ⟨left, h, List.Subset.refl _, List.Subset.refl _, fun hv => ?_⟩
    cases List.mem_singleton.mp hv
    exact .inr hleft
  · rw [if_neg fun hc => hvisited (List.contains_iff_mem.mp hc)]
    have hleft : child ∉ left := fun hc => hvisited (h.visited.mpr (.inr hc))
    obtain ⟨left', hin⟩ := henter hpath hleft
    -- The child is left when all its edges have been seen.
    refine ⟨child :: left', ⟨fun {x} => ?_, fun hx hl => ?_, fun he => ?_, ⟨fun v hv => hin.seen hv,
      hin.knows.edges⟩⟩, fun x hx => List.mem_cons_of_mem _ (hin.left hx), hin.back, fun hv => ?_⟩
    · rw [hin.knows.visited, List.mem_cons, List.mem_cons]
      tauto
    · rcases List.mem_cons.mp hl with rfl | hl
      · exact hpath hx
      · exact hin.knows.apart (List.mem_cons_of_mem _ hx) hl
    · rcases hin.knows.back he with hp | hl
      · rcases List.mem_cons.mp hp with hc | hp
        · exact .inr (hc ▸ List.mem_cons_self)
        · exact .inl hp
      · exact .inr (List.mem_cons_of_mem _ hl)
    · cases List.mem_singleton.mp hv
      exact .inr List.mem_cons_self

/-- The path does not come back to a block, so that it has at most as many levels as there are
blocks. -/
theorem visit_onward {nodes : List String} (hnodes : ∀ a, ∀ b ∈ succs a, b ∈ nodes)
    (hpath : path.Nodup) (hsub : path ⊆ nodes) (hfuel : nodes.length < fuel + path.length)
    (h : Knows succs path left s) :
    (∃ left', Onward succs path node (succs node) left left' s (visit succs fuel path node s)) ∧
      ∀ more, visit succs (fuel + more) path node s = visit succs fuel path node s := by
  induction fuel generalizing path node s left with
  | zero =>
    have hlevels := (hpath.subperm hsub).length_le
    omega
  | succ fuel ih =>
    have hchildren : ∀ c ∈ succs node, c ∈ nodes := hnodes node
    rw [visit_succ]
    simp only [Nat.succ_add, visit_succ]
    generalize succs node = children at hchildren
    induction children generalizing s left with
    | nil => exact ⟨⟨left, h, List.Subset.refl _, List.Subset.refl _, nofun⟩, fun _ => rfl⟩
    | cons child children ihc =>
      have hchild : child ∈ nodes := hchildren child List.mem_cons_self
      have hinner (hp : child ∉ path) (hl : child ∉ left) :
          (∃ left', Onward succs (child :: path) child (succs child) left left'
            { s with visited := child :: s.visited }
            (visit succs fuel (child :: path) child { s with visited := child :: s.visited })) ∧
          ∀ more, visit succs (fuel + more) (child :: path) child
            { s with visited := child :: s.visited } =
              visit succs fuel (child :: path) child { s with visited := child :: s.visited } := by
        refine ih (List.nodup_cons.mpr ⟨hp, hpath⟩) (List.cons_subset.mpr ⟨hchild, hsub⟩) ?_
          ⟨fun {x} => ?_, fun hx => ?_, fun he => (h.back he).imp_left (List.mem_cons_of_mem _),
            h.edges⟩
        · rw [List.length_cons]
          omega
        · rw [List.mem_cons, List.mem_cons, h.visited, or_assoc]
        · rcases List.mem_cons.mp hx with rfl | hx
          · exact hl
          · exact h.apart hx
      have hstep : ∃ left₁, Onward succs path node [child] left left₁ s
          (step succs fuel path node s child) := h.step fun hp hl => (hinner hp hl).1
      obtain ⟨left₁, h₁⟩ := hstep
      obtain ⟨⟨left₂, h₂⟩, hmore⟩ := ihc h₁.knows fun c hc => hchildren c (List.mem_cons_of_mem _ hc)
      refine ⟨⟨left₂, h₁.cons h₂⟩, fun more => ?_⟩
      have hstep : step succs (fuel + more) path node s child =
          step succs fuel path node s child := by
        unfold step
        by_cases hp : child ∈ path
        · rw [if_pos (List.contains_iff_mem.mpr hp), if_pos (List.contains_iff_mem.mpr hp)]
        by_cases hv : child ∈ s.visited
        · rw [if_pos (List.contains_iff_mem.mpr hv), if_pos (List.contains_iff_mem.mpr hv)]
        · have hl : child ∉ left := fun hc => hv (h.visited.mpr (.inr hc))
          rw [(hinner hp hl).2 more]
      rw [List.foldl_cons, List.foldl_cons, hstep]
      exact hmore more

/-- How many blocks had been left before a block was. -/
def rank : List String → String → Nat
  | [], _ => 0
  | _ :: left, x => if x ∈ left then rank left x else left.length

theorem rank_lt {x : String} (h : x ∈ left) : rank left x < left.length := by
  induction left with
  | nil => cases h
  | cons u left ih =>
    rw [rank, List.length_cons]
    split
    · exact Nat.lt_succ_of_lt (ih ‹_›)
    · exact Nat.lt_succ_self _

theorem Left.rank {back : List (String × String)} (h : Left succs back left) {u v : String}
    (hu : u ∈ left) (hv : v ∈ succs u) : (u, v) ∈ back ∨ v ∈ left ∧ rank left v < rank left u := by
  induction left with
  | nil => cases hu
  | cons x left ih =>
    by_cases hin : u ∈ left
    · refine (ih h.2 hin).imp_right fun ⟨hvl, hlt⟩ => ⟨List.mem_cons_of_mem _ hvl, ?_⟩
      rw [Search.rank, Search.rank, if_pos hvl, if_pos hin]
      exact hlt
    · cases (List.mem_cons.mp hu).resolve_right hin
      refine (h.1 v hv).imp_right fun hvl => ⟨List.mem_cons_of_mem _ hvl, ?_⟩
      rw [Search.rank, Search.rank, if_pos hvl, if_neg hin]
      exact rank_lt hvl

end Search

section

variable {succs : String → List String} {nodes : List String} {entry : String} {blocks : Nat}

open Search

/-- The whole search, from the entry. -/
theorem search_onward (hnodes : ∀ a, ∀ b ∈ succs a, b ∈ nodes) (hentry : entry ∈ nodes)
    (hblocks : nodes.length ≤ blocks) :
    (∃ left, Onward succs [entry] entry (succs entry) [] left ⟨[entry], []⟩
      (visit succs (blocks + 1) [entry] entry ⟨[entry], []⟩)) ∧
      ∀ more, visit succs (blocks + 1 + more) [entry] entry ⟨[entry], []⟩ =
        visit succs (blocks + 1) [entry] entry ⟨[entry], []⟩ := by
  have hstart : Knows succs [entry] [] ⟨[entry], []⟩ :=
    ⟨by simp, fun _ => List.not_mem_nil, nofun, trivial⟩
  refine visit_onward hnodes (List.nodup_singleton entry) ?_ ?_ hstart
  · exact List.cons_subset.mpr ⟨hentry, List.nil_subset _⟩
  · rw [List.length_singleton]
    omega

/-- The search for back edges has an end: more levels than blocks make no difference. -/
theorem findBackEdges_add (hnodes : ∀ a, ∀ b ∈ succs a, b ∈ nodes) (hentry : entry ∈ nodes)
    (hblocks : nodes.length ≤ blocks) (more : Nat) :
    findBackEdges succs (blocks + more) entry = findBackEdges succs blocks entry := by
  rw [findBackEdges, findBackEdges, Nat.add_right_comm,
    (search_onward hnodes hentry hblocks).2 more]

/-- All blocks that are reached have been left in the end, the entry last. -/
theorem findBackEdges_left (hnodes : ∀ a, ∀ b ∈ succs a, b ∈ nodes) (hentry : entry ∈ nodes)
    (hblocks : nodes.length ≤ blocks) :
    ∃ left, entry ∉ left ∧ Left succs (findBackEdges succs blocks entry) (entry :: left) ∧
      ∀ a, ReflTransGen (fun a b => b ∈ succs a) entry a → a ∈ entry :: left := by
  obtain ⟨left, h⟩ := (search_onward hnodes hentry hblocks).1
  have hleft : Left succs (findBackEdges succs blocks entry) (entry :: left) :=
    ⟨fun v hv => h.seen hv, h.knows.edges⟩
  have hback : ∀ e ∈ findBackEdges succs blocks entry, e.2 ∈ entry :: left := by
    intro e he
    rcases h.knows.back he with hp | hl
    · exact List.mem_singleton.mp hp ▸ List.mem_cons_self
    · exact List.mem_cons_of_mem _ hl
  refine ⟨left, h.knows.apart List.mem_cons_self, hleft, fun a ha => ?_⟩
  induction ha with
  | refl => exact List.mem_cons_self
  | tail _ hb ih =>
    rcases hleft.rank ih hb with he | ⟨hl, -⟩
    · exact hback _ he
    · exact hl

/-- The blocks that are reached have a rank that goes down along all edges but the back edges. -/
theorem findBackEdges_rank (hnodes : ∀ a, ∀ b ∈ succs a, b ∈ nodes) (hentry : entry ∈ nodes)
    (hblocks : nodes.length ≤ blocks) :
    ∃ (rank : String → Nat) (top : Nat), ∀ a, ReflTransGen (fun a b => b ∈ succs a) entry a →
      rank a < top ∧ ∀ b ∈ succs a, (a, b) ∈ findBackEdges succs blocks entry ∨ rank b < rank a := by
  obtain ⟨left, -, hleft, hreached⟩ := findBackEdges_left hnodes hentry hblocks
  refine ⟨rank (entry :: left), (entry :: left).length, fun a ha => ⟨rank_lt (hreached a ha),
    fun b hb => ?_⟩⟩
  exact (hleft.rank (hreached a ha) hb).imp_right And.right

/-- The edges that lead back to the entry from the blocks that are reached are back edges. -/
theorem mem_findBackEdges_entry (hnodes : ∀ a, ∀ b ∈ succs a, b ∈ nodes) (hentry : entry ∈ nodes)
    (hblocks : nodes.length ≤ blocks) {a : String}
    (ha : ReflTransGen (fun a b => b ∈ succs a) entry a) (hedge : entry ∈ succs a) :
    (a, entry) ∈ findBackEdges succs blocks entry := by
  obtain ⟨left, hnot, hleft, hreached⟩ := findBackEdges_left hnodes hentry hblocks
  refine (hleft.rank (hreached a ha) hedge).resolve_right fun ⟨_, hlt⟩ => ?_
  -- no block has a higher rank than the entry
  have htop : rank (entry :: left) entry = left.length := if_neg hnot
  have ha : rank (entry :: left) a < (entry :: left).length := rank_lt (hreached a ha)
  rw [List.length_cons] at ha
  omega

end

end Precond.Flow

namespace Precond

open IR Relation

theorem nodup_eraseDups [DecidableEq α] : (l : List α) → l.eraseDups.Nodup
  | [] => List.nodup_nil
  | a :: l => by
    rw [List.eraseDups_cons, List.nodup_cons, List.mem_eraseDups]
    exact ⟨fun h => by simp at h, nodup_eraseDups _⟩
termination_by l => l.length
decreasing_by exact Nat.lt_succ_of_le (List.length_filter_le ..)

/-- Where blocks have different names, a block is found with the one behind it. -/
theorem IR.Sub.at?_of_follow {s : Sub} {p : Blk × Option String} (hd : (s.blks.map Blk.tid).Nodup)
    (hp : p ∈ follow s.blks) : s.at? p.1.tid = some p := by
  have hsome : ((follow s.blks).reverse.find? (·.1.tid == p.1.tid)).isSome :=
    List.find?_isSome.mpr ⟨p, List.mem_reverse.mpr hp, beq_self_eq_true _⟩
  obtain ⟨q, hq⟩ := Option.isSome_iff_exists.mp hsome
  have htid := List.find?_some hq
  rw [← follow_fst s.blks, List.map_map] at hd
  rw [Sub.at?, hq, List.inj_on_of_nodup_map hd
    (List.mem_reverse.mp (List.mem_of_find?_eq_some hq)) hp (eq_of_beq htid)]

namespace Table

theorem length_keys {κ α : Type} (t : Table κ α) : t.keys.length = t.length := List.length_map ..

variable {κ α : Type} [DecidableEq κ]

theorem lookup_adjust (t : Table κ α) (key k : κ) (f : α → α) :
    (t.adjust key f).lookup k = if key = k then (t.lookup k).map f else t.lookup k := by
  induction t with
  | nil => exact (ite_self none).symm
  | cons e t ih =>
    obtain ⟨k', v⟩ := e
    rw [adjust, List.map_cons]
    by_cases hk : k = k'
    · subst hk
      by_cases hkey : k = key
      · simp [hkey]
      · simp [hkey, Ne.symm hkey]
    · by_cases hkey : k' = key
      · rw [if_pos hkey, List.lookup_cons, List.lookup_cons, beq_false_of_ne hk]
        exact ih
      · rw [if_neg hkey, List.lookup_cons, List.lookup_cons, beq_false_of_ne hk]
        exact ih

theorem length_put_le (t : Table κ α) (key : κ) (value : α) :
    (t.put key value).length ≤ t.length + 1 := by
  induction t with
  | nil => exact Nat.le_refl _
  | cons e t ih =>
    rw [put]
    split
    · exact Nat.le_succ _
    · exact Nat.succ_le_succ ih

theorem length_foldl_put_le {β : Type} (f : β → κ) (g : β → α) (l : List β) (t : Table κ α) :
    (l.foldl (fun t e => t.put (f e) (g e)) t).length ≤ t.length + l.length := by
  induction l generalizing t with
  | nil => exact Nat.le_refl _
  | cons e l ih =>
    rw [List.foldl_cons, List.length_cons]
    have hput : (t.put (f e) (g e)).length ≤ t.length + 1 := length_put_le ..
    have hrest := ih (t.put (f e) (g e))
    omega

end Table

namespace Flow

variable {preds : String → List String} {nodes work body : List String} {header latch : String}
  {fuel blocks : Nat}

@[simp] theorem gather_nil : gather preds header fuel [] body = body := by
  cases fuel <;> rfl

/-- Each block comes to wait at most once; when none waits, the predecessors of all blocks but the
header are there. -/
theorem gather_closed (hnodes : ∀ a, preds a ⊆ nodes) (hbody : body.Nodup) (hsub : body ⊆ nodes)
    (hfuel : work.length + nodes.length ≤ fuel + body.length)
    (hclosed : ∀ y ∈ body, y ≠ header → y ∈ work ∨ preds y ⊆ body) :
    (∀ y ∈ gather preds header fuel work body, y ≠ header →
      preds y ⊆ gather preds header fuel work body) ∧
      ∀ more, gather preds header (fuel + more) work body = gather preds header fuel work body := by
  induction fuel generalizing work body with
  | zero =>
    have hlength := (hbody.subperm hsub).length_le
    obtain rfl := List.eq_nil_of_length_eq_zero (show work.length = 0 by omega)
    simp only [gather_nil]
    exact ⟨fun y hy hne => (hclosed y hy hne).resolve_left List.not_mem_nil, fun _ => trivial⟩
  | succ fuel ih =>
    cases work with
    | nil =>
      simp only [gather_nil]
      exact ⟨fun y hy hne => (hclosed y hy hne).resolve_left List.not_mem_nil, fun _ => trivial⟩
    | cons node work =>
      rw [List.length_cons] at hfuel
      simp only [Nat.succ_add, gather]
      split
      · rename_i hnode
        refine ih hbody hsub (by omega) fun y hy hne => ?_
        refine (hclosed y hy hne).imp_left fun h => (List.mem_cons.mp h).resolve_left ?_
        exact fun h => hne (h.trans hnode)
      · set new := (preds node).eraseDups.filter (!body.contains ·) with hnew
        have hmem (x : String) : x ∈ new ↔ x ∈ preds node ∧ x ∉ body := by simp [hnew]
        have hnode : preds node ⊆ body ++ new := fun x hx => by
          by_cases hb : x ∈ body
          · exact List.mem_append_left _ hb
          · exact List.mem_append_right _ ((hmem x).mpr ⟨hx, hb⟩)
        refine ih (hbody.append ((nodup_eraseDups _).filter _) fun x hb hn => ((hmem x).mp hn).2 hb)
          (List.append_subset.mpr ⟨hsub, fun x hx => hnodes node ((hmem x).mp hx).1⟩)
          (by rw [List.length_append, List.length_append]; omega) fun y hy hne => ?_
        rcases List.mem_append.mp hy with hy | hy
        · rcases hclosed y hy hne with hw | hp
          · rcases List.mem_cons.mp hw with rfl | hw
            · exact .inr hnode
            · exact .inl (List.mem_append_right _ hw)
          · exact .inr (List.Subset.trans hp (List.subset_append_left ..))
        · exact .inl (List.mem_append_left _ hy)

theorem latch_mem_naturalLoop : latch ∈ naturalLoop preds blocks latch header :=
  subset_gather _ _ _ _ _ (List.mem_eraseDups.mpr (by simp))

section

variable (hnodes : ∀ a, preds a ⊆ nodes) (hlatch : latch ∈ nodes) (hheader : header ∈ nodes)
  (hblocks : nodes.length ≤ blocks)

include hnodes hlatch hheader hblocks

theorem naturalLoop_search :
    (∀ y ∈ naturalLoop preds blocks latch header, y ≠ header →
      preds y ⊆ naturalLoop preds blocks latch header) ∧
      ∀ more, naturalLoop preds (blocks + more) latch header =
        naturalLoop preds blocks latch header := by
  have hstart (x : String) : x ∈ [header, latch].eraseDups ↔ x = header ∨ x = latch := by simp
  have h := @gather_closed preds nodes [latch] [header, latch].eraseDups header (blocks + 2) hnodes
    (nodup_eraseDups [header, latch]) (fun x hx => ?_) ?_ fun y hy hne => .inl ?_
  · refine ⟨h.1, fun more => ?_⟩
    rw [naturalLoop, Nat.add_right_comm]
    exact h.2 more
  · rcases (hstart x).mp hx with rfl | rfl
    · exact hheader
    · exact hlatch
  · rw [List.length_singleton]
    omega
  · exact List.mem_singleton.mpr (((hstart y).mp hy).resolve_left hne)

end

/-- The loop of a header is made of those of its back edges. -/
theorem mem_foldl_addLoop (edges : List (String × String)) (loops : Table String (List String))
    (h x : String) :
    x ∈ ((edges.foldl (Graph.addLoop preds blocks) loops).lookup h).getD [] ↔
      x ∈ (loops.lookup h).getD [] ∨ ∃ e ∈ edges, e.2 = h ∧ x ∈ naturalLoop preds blocks e.1 h := by
  induction edges generalizing loops with
  | nil => simp
  | cons e edges ih =>
    rw [List.foldl_cons, ih, Graph.addLoop]
    by_cases he : e.2 = h
    · subst he
      have hheader : x = e.2 → x ∈ naturalLoop preds blocks e.1 e.2 := fun h =>
        h ▸ header_mem_naturalLoop ..
      rw [Table.lookup_put_self, Option.getD_some, List.mem_eraseDups, List.mem_append,
        List.exists_mem_cons_iff, or_assoc]
      cases loops.lookup e.2 with
      | none =>
        simp only [Option.getD_none, List.mem_singleton, List.not_mem_nil, false_or, true_and]
        rw [← or_assoc, or_iff_right_of_imp hheader]
      | some body => simp only [Option.getD_some, true_and]
    · rw [Table.lookup_put_of_ne _ _ (Ne.symm he), List.exists_mem_cons_iff]
      simp only [he, false_and, false_or]

namespace Graph

variable {s : Sub} {g : Graph}

/-- Each source of an edge is entered with its targets. -/
theorem lookup_sources (outs : List (String × List String)) (t : Table String (List String))
    (b : String) :
    (outs.foldl (fun t e => e.2.foldl (fun t d => Table.adjust t d (· ++ [e.1])) t) t).lookup b =
      (t.lookup b).map (· ++ outs.flatMap fun e => List.replicate (e.2.count b) e.1) := by
  have hone (a : String) (ds : List String) (t : Table String (List String)) :
      (ds.foldl (fun t d => Table.adjust t d (· ++ [a])) t).lookup b =
        (t.lookup b).map (· ++ List.replicate (ds.count b) a) := by
    induction ds generalizing t with
    | nil => simp
    | cons d ds ih =>
      rw [List.foldl_cons, ih, Table.lookup_adjust, List.count_cons]
      by_cases hd : d = b
      · simp [hd, Function.comp_def, List.replicate_succ]
      · simp [hd]
  induction outs generalizing t with
  | nil => simp
  | cons e outs ih =>
    rw [List.foldl_cons, ih, hone]
    simp [Function.comp_def]

theorem mem_sources {outs : List (String × List String)} {keys : List String} :
    a ∈ ((outs.foldl (fun t e => e.2.foldl (fun t d => Table.adjust t d (· ++ [e.1])) t)
      (keys.map (·, []))).lookup b).getD [] ↔ b ∈ keys ∧ ∃ e ∈ outs, e.1 = a ∧ b ∈ e.2 := by
  have hstart : (keys.map fun k => (k, ([] : List String))).lookup b =
      if b ∈ keys then some [] else none := by
    induction keys with
    | nil => rfl
    | cons k keys ih =>
      by_cases hk : b = k
      · simp [hk]
      · simp [List.lookup_cons, hk, ih, beq_false_of_ne hk]
  rw [lookup_sources, hstart]
  by_cases hb : b ∈ keys
  · simp only [hb, if_true, Option.map_some, Option.getD_some, List.nil_append, List.mem_flatMap,
      List.mem_replicate, true_and]
    refine exists_congr fun e => and_congr_right fun _ => ?_
    rw [and_comm, eq_comm, ← Nat.pos_iff_ne_zero, List.count_pos_iff]
  · simp [hb]

theorem exists_mem_of_mem_targets {outs : List (String × List String)}
    (h : b ∈ ((outs.foldl (fun t e => Table.put t e.1 e.2) []).lookup a).getD []) :
    ∃ e ∈ outs, e.1 = a ∧ b ∈ e.2 := by
  rw [Table.lookup_foldl_put, List.lookup_nil, Option.or_none] at h
  cases hf : outs.reverse.find? (·.1 == a) with
  | none =>
    rw [hf] at h
    cases h
  | some e =>
    rw [hf] at h
    have he := List.find?_some hf
    exact ⟨e, List.mem_reverse.mp (List.mem_of_find?_eq_some hf), eq_of_beq he, h⟩

/-- How a graph is made: by searches along the edges between its blocks. -/
structure Searched (g : Graph) : Prop where
  entry : g.entry ∈ g.blocks.keys
  succs (a : String) : g.succsOf a ⊆ g.blocks.keys
  preds (b : String) : g.predsOf b ⊆ g.blocks.keys
  pred_of_succ : b ∈ g.succsOf a → a ∈ g.predsOf b
  backEdges : g.backEdges = findBackEdges g.succsOf g.blocks.length g.entry
  loops : g.loops = g.backEdges.foldl (addLoop g.predsOf g.blocks.length) []

theorem searched_ofSub (h : ofSub s = .ok g) : g.Searched := by
  have hg : g.Of s := of_ofSub h
  have hkeys : ∀ b ∈ s.blks, b.tid ∈ g.blocks.keys := fun b hb =>
    hg.mem_keys.mpr (Sub.at?_isSome (List.mem_map_of_mem hb))
  unfold ofSub at h
  split at h
  · cases h
  rename_i first rest hblks
  cases h
  dsimp only at hkeys
  generalize hblocks : s.blks.foldl (fun t (b : Blk) => Table.put t b.tid b) [] = blocks at hkeys ⊢
  have houts : ∀ e ∈ (fallthroughs s.blks).map fun p => (p.1.tid, targets blocks p.1 p.2),
      e.1 ∈ blocks.keys ∧ e.2 ⊆ blocks.keys := by
    intro e he
    obtain ⟨p, hp, rfl⟩ := List.mem_map.mp he
    have hb : p.1 ∈ (follow s.blks).map (·.1) := by
      rw [fallthroughs_eq] at hp
      obtain ⟨q, hq, rfl⟩ := List.mem_map.mp hp
      exact List.mem_map.mpr ⟨q, hq, rfl⟩
    refine ⟨hkeys _ (follow_fst s.blks ▸ hb), fun t ht => ?_⟩
    exact List.contains_iff_mem.mp (List.mem_filter.mp (List.mem_eraseDups.mp ht)).2
  refine ⟨hkeys _ (hblks ▸ List.mem_cons_self), fun a b hb => ?_, fun b a ha => ?_,
    fun {b a} hb => ?_, rfl, rfl⟩
  · obtain ⟨e, he, -, hb⟩ := exists_mem_of_mem_targets hb
    exact (houts e he).2 hb
  · obtain ⟨-, e, he, rfl, -⟩ := mem_sources.mp ha
    exact (houts e he).1
  · obtain ⟨e, he, ha, hb⟩ := exists_mem_of_mem_targets hb
    exact mem_sources.mpr ⟨(houts e he).2 hb, e, he, ha, hb⟩

/-- Where blocks have different names, predecessors are entered for edges only. -/
theorem succ_of_pred (h : ofSub s = .ok g) (hd : (s.blks.map Blk.tid).Nodup) (ha : a ∈ g.predsOf b) :
    b ∈ g.succsOf a := by
  have hg : g.Of s := of_ofSub h
  unfold ofSub at h
  split at h
  · cases h
  cases h
  obtain ⟨-, e, he, rfl, hb⟩ := mem_sources.mp ha
  obtain ⟨p, hp, rfl⟩ := List.mem_map.mp he
  rw [fallthroughs_eq] at hp
  obtain ⟨q, hq, rfl⟩ := List.mem_map.mp hp
  rw [hg.succsOf, Sub.at?_of_follow hd hq]
  exact hb

theorem length_blocks_le (h : ofSub s = .ok g) : g.blocks.length ≤ s.blks.length := by
  unfold ofSub at h
  split at h
  · cases h
  cases h
  exact (Table.length_foldl_put_le ..).trans (Nat.zero_add _).le

/-- Each block is a successor once at most. -/
theorem length_succsOf_le (h : ofSub s = .ok g) (t : String) :
    (g.succsOf t).length ≤ g.blocks.length := by
  have hnodup : (g.succsOf t).Nodup := by
    rw [(of_ofSub h).succsOf]
    cases s.at? t with
    | none => exact List.nodup_nil
    | some p => exact nodup_eraseDups _
  calc (g.succsOf t).length
    _ ≤ g.blocks.keys.length := (hnodup.subperm ((searched_ofSub h).succs t)).length_le
    _ = g.blocks.length := Table.length_keys ..

namespace Searched

variable (hg : g.Searched)

include hg

theorem mem_loopOf : x ∈ g.loopOf h ↔
    ∃ e ∈ g.backEdges, e.2 = h ∧ x ∈ naturalLoop g.predsOf g.blocks.length e.1 h := by
  rw [loopOf, hg.loops, mem_foldl_addLoop]
  simp

/-- A back edge is an edge between blocks. -/
theorem isBackEdge (hab : g.isBackEdge a b) : a ∈ g.blocks.keys ∧ b ∈ g.blocks.keys := by
  have hmem := List.contains_iff_mem.mp hab
  rw [hg.backEdges] at hmem
  have hb := (findBackEdges_closes hmem).1
  exact ⟨hg.preds b (hg.pred_of_succ hb), hg.succs a hb⟩

theorem latch_mem (hab : g.isBackEdge a b) : a ∈ g.loopOf b :=
  hg.mem_loopOf.mpr ⟨_, List.contains_iff_mem.mp hab, rfl, latch_mem_naturalLoop⟩

theorem header_mem (hab : g.isBackEdge a b) : b ∈ g.loopOf b :=
  hg.mem_loopOf.mpr ⟨_, List.contains_iff_mem.mp hab, rfl, header_mem_naturalLoop ..⟩

theorem search (hab : g.isBackEdge a b) :
    (∀ y ∈ naturalLoop g.predsOf g.blocks.length a b, y ≠ b →
      g.predsOf y ⊆ naturalLoop g.predsOf g.blocks.length a b) ∧
      ∀ more, naturalLoop g.predsOf (g.blocks.length + more) a b =
        naturalLoop g.predsOf g.blocks.length a b :=
  naturalLoop_search hg.preds (hg.isBackEdge hab).1 (hg.isBackEdge hab).2
    (Table.length_keys g.blocks).le

/-- With each of its blocks but the header a loop has the predecessors. -/
theorem closed (hb : b ∈ g.loopOf h) (hne : b ≠ h) (hab : b ∈ g.succsOf a) : a ∈ g.loopOf h := by
  obtain ⟨e, he, rfl, hb⟩ := hg.mem_loopOf.mp hb
  have hsearch := hg.search (List.contains_iff_mem.mpr he)
  exact hg.mem_loopOf.mpr ⟨e, he, rfl, hsearch.1 b hb hne (hg.pred_of_succ hab)⟩

theorem ranked : ∃ (rank : String → Nat) (top : Nat),
    ∀ a, ReflTransGen (fun a b => b ∈ g.succsOf a) g.entry a →
      rank a < top ∧ ∀ b ∈ g.succsOf a, g.isBackEdge a b ∨ rank b < rank a := by
  have hsuccs : ∀ a, ∀ b ∈ g.succsOf a, b ∈ g.blocks.keys := fun a _ hb => hg.succs a hb
  have h := findBackEdges_rank hsuccs hg.entry (Table.length_keys g.blocks).le
  simpa only [← hg.backEdges, Graph.isBackEdge, List.contains_iff_mem] using h

/-- What leads back to the entry is a back edge. -/
theorem back_entry (ha : ReflTransGen (fun a b => b ∈ g.succsOf a) g.entry a)
    (hedge : g.entry ∈ g.succsOf a) : g.isBackEdge a g.entry := by
  have hsuccs : ∀ a, ∀ b ∈ g.succsOf a, b ∈ g.blocks.keys := fun a _ hb => hg.succs a hb
  refine List.contains_iff_mem.mpr ?_
  rw [hg.backEdges]
  exact mem_findBackEdges_entry hsuccs hg.entry (Table.length_keys g.blocks).le ha hedge

end Searched

/-- The graph that searches with more steps give. -/
def searchLonger (more : Nat) (g : Graph) : Graph :=
  let backEdges := findBackEdges g.succsOf (g.blocks.length + more) g.entry
  { g with
    backEdges
    loops := backEdges.foldl (addLoop g.predsOf (g.blocks.length + more)) [] }

/-- The searches come to their ends: with more steps they find the same. -/
theorem Searched.searchLonger (hg : g.Searched) (more : Nat) : g.searchLonger more = g := by
  have hback : findBackEdges g.succsOf (g.blocks.length + more) g.entry = g.backEdges := by
    rw [hg.backEdges]
    exact findBackEdges_add hg.succs hg.entry (Table.length_keys g.blocks).le more
  have hloops : g.backEdges.foldl (addLoop g.predsOf (g.blocks.length + more)) [] = g.loops := by
    rw [hg.loops]
    refine List.foldl_ext _ _ _ fun loops e he => ?_
    rw [addLoop, addLoop, (hg.search (List.contains_iff_mem.mpr he)).2 more]
  rw [Graph.searchLonger, hback, hloops]

theorem ofSub_searchLonger (s : Sub) (more : Nat) :
    (ofSub s).map (Graph.searchLonger more) = ofSub s := by
  cases h : ofSub s with
  | error f => rfl
  | ok g => exact congrArg Except.ok ((searched_ofSub h).searchLonger more)

end Graph

end Flow

end Precond
