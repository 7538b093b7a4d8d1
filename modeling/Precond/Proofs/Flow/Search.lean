import Mathlib.Data.List.Chain
import Precond.Flow.Search
import Precond.Proofs.Flow.Loops

/-! What the search for back edges finds. The search from a stack ends as the recursion does, or comes
to a block without an entry in the table (`Search.Machine.run_frame`). What it has seen so far hangs on
a tree (`Search.Traced`): each block on the stack hangs on the one below it, and a back edge leads
from a block up its branch of the tree, so that no edge of the tree is a back edge. Together with the
rank that goes down along all other edges this says which edges are found
(`Flow.backEdgesFromStack_cuts`). -/

namespace Precond

namespace Flow

open Relation

/-- A way from one block to another, with all blocks on it. -/
structure Route (E : String → String → Prop) (a b : String) (way : List String) : Prop where
  head : way.head? = some a
  last : way.getLast? = some b
  edges : way.IsChain E

/-- There is an edge between two blocks. -/
abbrev Edge (succs : String → List String) (a b : String) : Prop := b ∈ succs a

/-- There is an edge, and it is not in a set of edges. -/
def Forward (succs : String → List String) (back : List (String × String)) (a b : String) : Prop :=
  Edge succs a b ∧ (a, b) ∉ back

/-- Control can come from one block to another. -/
abbrev Reachable (succs : String → List String) : String → String → Prop := ReflTransGen (Edge succs)

/-- A block that is on all ways from the entry to another block. -/
def Dominates (succs : String → List String) (entry h t : String) : Prop :=
  ∀ way, Route (Edge succs) entry t way → h ∈ way

/-- Edges that cut all cycles among the blocks that are reached, and cycles only. -/
structure Cuts (succs : String → List String) (entry : String) (back : List (String × String)) :
    Prop where
  acyclic : Reachable succs entry t → ¬ TransGen (Forward succs back) t t
  closes : (u, h) ∈ back →
    Edge succs u h ∧ Reachable succs entry u ∧ ReflTransGen (Forward succs back) h u
  dominated : Reachable succs entry u → Edge succs u h → Dominates succs entry h u → (u, h) ∈ back

namespace Route

variable {E : String → String → Prop} {a b x : String} {way : List String}

theorem of_reaches (h : ReflTransGen E a b) : ∃ way, Route E a b way := by
  obtain ⟨way, hchain, hlast⟩ := List.exists_isChain_cons_of_relationReflTransGen h
  refine ⟨a :: way, rfl, ?_, hchain⟩
  rw [List.getLast?_eq_getLast_of_ne_nil (List.cons_ne_nil _ _), hlast]

theorem mono {E' : String → String → Prop} (h : Route E a b way) (hE : ∀ {x y}, E x y → E' x y) :
    Route E' a b way := ⟨h.head, h.last, h.edges.imp fun _ _ => hE⟩

theorem reaches (h : Route E a b way) : ReflTransGen E a b := by
  obtain ⟨hhead, hlast, hedges⟩ := h
  cases way with
  | nil => cases hhead
  | cons y way =>
    cases hhead
    rw [List.getLast?_eq_getLast_of_ne_nil (List.cons_ne_nil _ _)] at hlast
    exact List.relationReflTransGen_of_exists_isChain_cons way hedges (Option.some.inj hlast)

/-- Each block on a way cuts it in two. -/
theorem split (h : Route E a b way) (hx : x ∈ way) : ∃ before after, way = before ++ x :: after ∧
    Route E a x (before ++ [x]) ∧ Route E x b (x :: after) := by
  obtain ⟨before, after, rfl⟩ := List.append_of_mem hx
  obtain ⟨hhead, hlast, hedges⟩ := h
  rw [List.isChain_split] at hedges
  refine ⟨before, after, rfl, ⟨?_, List.getLast?_concat, hedges.1⟩, ⟨rfl, ?_, hedges.2⟩⟩
  · rw [← hhead]
    cases before <;> rfl
  · rw [← hlast, List.getLast?_append_of_ne_nil _ (List.cons_ne_nil _ _)]

end Route

namespace Search

theorem mem_targets_of_next {succs : Table String (List String)} {a b : String}
    (h : b ∈ next succs a) : b ∈ succs.flatMap (·.2) := by
  unfold next at h
  cases hl : succs.lookup a with
  | none =>
    rw [hl] at h
    cases h
  | some bs =>
    rw [hl] at h
    exact List.mem_flatMap.mpr ⟨(a, bs), Table.mem_of_lookup hl, h⟩

/-! ### The search from a stack and the recursion -/

namespace Machine

variable {succs : Table String (List String)} {m m' : Machine} {fuel : Nat} {node : String}
  {path children : List String} {stack : List Frame} {s : State}

theorem run_step (h : m.stack ≠ []) : run succs m = m.step succs >>= run succs := by
  rw [run, dif_neg h]
  cases m.step succs <;> rfl

theorem run_leave : run succs ⟨s, ⟨node, []⟩ :: stack, node :: path⟩ = run succs ⟨s, stack, path⟩ := by
  rw [run_step (List.cons_ne_nil _ _), step]
  show run succs ⟨s, stack, (node :: path).erase node⟩ = _
  rw [List.erase_cons_head]

theorem mem_keys (h : succs.lookup node = some children) : node ∈ succs.keys :=
  Table.mem_keys_iff.mpr (Option.isSome_of_eq_some h)

/-- The successors of a block are looked at one by one, as by the recursion, if those that are entered
are done with as by the recursion. -/
theorem run_children
    (henter : ∀ child children s stack, child ∉ path → succs.lookup child = some children →
      run succs ⟨s, ⟨child, children⟩ :: stack, child :: path⟩ = .error .missingEntry ∨
        run succs ⟨s, ⟨child, children⟩ :: stack, child :: path⟩ =
          run succs ⟨visit (next succs) fuel (child :: path) child s, stack, path⟩) :
    run succs ⟨s, ⟨node, children⟩ :: stack, path⟩ = .error .missingEntry ∨
      run succs ⟨s, ⟨node, children⟩ :: stack, path⟩ =
        run succs ⟨children.foldl (Search.step (next succs) fuel path node) s, ⟨node, []⟩ :: stack,
          path⟩ := by
  induction children generalizing s with
  | nil => exact .inr rfl
  | cons child rest ih =>
    rw [List.foldl_cons, run_step (List.cons_ne_nil _ _), step]
    dsimp only [Search.step]
    by_cases hpath : child ∈ path
    · rw [if_pos (List.contains_iff_mem.mpr hpath), if_pos (List.contains_iff_mem.mpr hpath)]
      exact ih
    rw [if_neg fun hc => hpath (List.contains_iff_mem.mp hc),
      if_neg fun hc => hpath (List.contains_iff_mem.mp hc)]
    by_cases hvisited : child ∈ s.visited
    · rw [if_pos (List.contains_iff_mem.mpr hvisited), if_pos (List.contains_iff_mem.mpr hvisited)]
      exact ih
    rw [if_neg fun hc => hvisited (List.contains_iff_mem.mp hc),
      if_neg fun hc => hvisited (List.contains_iff_mem.mp hc)]
    cases hlookup : succs.lookup child with
    | none => exact .inl rfl
    | some children =>
      rcases henter child children { s with visited := child :: s.visited } (⟨node, rest⟩ :: stack)
        hpath hlookup with hin | hin
      · exact .inl hin
      · exact ih.imp hin.trans hin.trans

/-- A block on top of the stack is done with as by the recursion, unless the search comes to a block
without an entry. -/
theorem run_frame (hpath : path.Nodup) (hkeys : path ⊆ succs.keys)
    (hfuel : succs.length ≤ fuel + path.length) :
    run succs ⟨s, ⟨node, children⟩ :: stack, path⟩ = .error .missingEntry ∨
      run succs ⟨s, ⟨node, children⟩ :: stack, path⟩ =
        run succs ⟨children.foldl (Search.step (next succs) fuel path node) s, ⟨node, []⟩ :: stack,
          path⟩ := by
  induction fuel generalizing path node s stack children with
  | zero =>
    -- the path holds all blocks of the table
    refine run_children fun child children s stack hnew hlookup => ?_
    have hlevels := ((List.nodup_cons.mpr ⟨hnew, hpath⟩).subperm
      (List.cons_subset.mpr ⟨mem_keys hlookup, hkeys⟩)).length_le
    rw [List.length_cons, Table.length_keys] at hlevels
    omega
  | succ fuel ih =>
    refine run_children fun child children s stack hnew hlookup => ?_
    obtain rfl : next succs child = children := by rw [next, hlookup, Option.getD_some]
    have hin := @ih child (child :: path) (next succs child) stack s
      (List.nodup_cons.mpr ⟨hnew, hpath⟩) (List.cons_subset.mpr ⟨mem_keys hlookup, hkeys⟩)
      (by rw [List.length_cons]; omega)
    rwa [run_leave, ← visit_succ] at hin

/-- What steps keep holds at the end of a search, and where it fails. -/
theorem run_cases {P : Machine → Prop} (hP : P m)
    (hstep : ∀ m m', P m → m.step succs = .ok m' → P m') :
    (∃ m', run succs m = .ok m' ∧ P m' ∧ m'.stack = []) ∨
      ∃ m' f, run succs m = .error f ∧ P m' ∧ m'.step succs = .error f := by
  induction m using run.induct succs with
  | case1 m hm => exact .inl ⟨m, by rw [run, dif_pos hm], hP, hm⟩
  | case2 m hm m' h ih =>
    rw [run_step hm, h]
    exact ih (hstep m m' hP h)
  | case3 m hm f h =>
    rw [run_step hm, h]
    exact .inr ⟨m, f, rfl, hP, h⟩

end Machine

/-! ### The tree of the search -/

/-- What the search has seen hangs on a tree. -/
structure Traced (succs : Table String (List String)) (entry : String)
    (tree : List (String × String)) (m : Machine) : Prop where
  onStack : m.onStack = m.stack.map Frame.node
  nodup : m.onStack.Nodup
  rest : f ∈ m.stack → f.rest ⊆ next succs f.node
  branch : m.onStack.IsChain fun b a => (a, b) ∈ tree
  entered : x ∈ m.onStack → x ∈ m.visited
  visited : x ∈ m.visited → (succs.lookup x).isSome ∧ ReflTransGen (fun a b => (a, b) ∈ tree) entry x
  edge : (a, b) ∈ tree → b ∈ next succs a ∧ b ∈ m.visited
  parent : (a, b) ∈ tree → b ∈ m.onStack → [b, a] <:+: m.onStack
  back : (a, b) ∈ m.back →
    b ∈ next succs a ∧ a ∈ m.visited ∧ b ∈ m.visited ∧ ReflTransGen (fun a b => (a, b) ∈ tree) b a
  apart : e ∈ tree → e ∉ m.back

variable {succs : Table String (List String)} {m m' : Machine} {entry node child : String}
  {path rest : List String} {stack : List Frame} {tree : List (String × String)} {s : State}

/-- All blocks on a branch lead down to its end. -/
theorem reaches_of_branch {E : String → String → Prop} {x : String}
    (h : (node :: path).IsChain fun b a => E a b) (hx : x ∈ node :: path) : ReflTransGen E x node := by
  induction path generalizing node with
  | nil => exact List.mem_singleton.mp hx ▸ .refl
  | cons up path ih =>
    rw [List.isChain_cons_cons] at h
    rcases List.mem_cons.mp hx with rfl | hx
    · exact .refl
    · exact (ih h.2 hx).tail h.1

/-- The innermost block has none below it. -/
theorem not_infix_of_nodup (h : (node :: path).Nodup) (x : String) : ¬ [x, node] <:+: node :: path := by
  have hnode : node ∉ path := (List.nodup_cons.mp h).1
  rw [List.infix_cons_iff, List.cons_prefix_cons]
  rintro (⟨-, hp⟩ | hp)
  · exact hnode (hp.subset List.mem_cons_self)
  · exact hnode (hp.subset (List.mem_cons_of_mem _ List.mem_cons_self))

namespace Traced

theorem start {children : List String} (h : succs.lookup entry = some children) :
    Traced succs entry [] (.start entry children) where
  onStack := rfl
  nodup := List.nodup_singleton entry
  rest := by
    intro f hf
    cases List.mem_singleton.mp hf
    rw [next, h]
    exact List.Subset.refl _
  branch := List.isChain_singleton entry
  entered h := h
  visited := by
    intro x hx
    cases List.mem_singleton.mp hx
    exact ⟨Option.isSome_of_eq_some h, .refl⟩
  edge h := nomatch h
  parent h := nomatch h
  back h := nomatch h
  apart _ h := nomatch h

/-- The innermost block is left. -/
theorem leave (h : Traced succs entry tree ⟨s, ⟨node, []⟩ :: stack, node :: path⟩) :
    Traced succs entry tree ⟨s, stack, path⟩ where
  onStack := (List.cons.inj h.onStack).2
  nodup := (List.nodup_cons.mp h.nodup).2
  rest hf := h.rest (List.mem_cons_of_mem _ hf)
  branch := h.branch.tail
  entered hx := h.entered (List.mem_cons_of_mem _ hx)
  visited := h.visited
  edge := h.edge
  parent := by
    intro a b hab hb
    refine (List.infix_cons_iff.mp (h.parent hab (List.mem_cons_of_mem _ hb))).resolve_left fun hp => ?_
    rw [List.cons_prefix_cons] at hp
    exact (List.nodup_cons.mp h.nodup).1 (hp.1 ▸ hb)
  back := h.back
  apart := h.apart

/-- A successor is passed by. -/
theorem pass (h : Traced succs entry tree ⟨s, ⟨node, child :: rest⟩ :: stack, path⟩) :
    Traced succs entry tree ⟨s, ⟨node, rest⟩ :: stack, path⟩ where
  __ := h
  onStack := h.onStack
  rest := by
    intro f hf
    rcases List.mem_cons.mp hf with rfl | hf
    · exact List.Subset.trans (List.subset_cons_self ..) (h.rest List.mem_cons_self)
    · exact h.rest (List.mem_cons_of_mem _ hf)

/-- A successor on the stack is at the end of a back edge. -/
theorem close (h : Traced succs entry tree ⟨s, ⟨node, child :: rest⟩ :: stack, node :: path⟩)
    (hchild : child ∈ node :: path) :
    Traced succs entry tree ⟨{ s with back := (node, child) :: s.back }, ⟨node, rest⟩ :: stack,
      node :: path⟩ where
  __ := h.pass
  onStack := h.pass.onStack
  back := by
    intro a b hab
    rcases List.mem_cons.mp hab with hab | hab
    · cases hab
      exact ⟨h.rest List.mem_cons_self List.mem_cons_self, h.entered List.mem_cons_self,
        h.entered hchild, reaches_of_branch h.branch hchild⟩
    · exact h.back hab
  apart := by
    intro e he hback
    rcases List.mem_cons.mp hback with rfl | hback
    · exact not_infix_of_nodup h.nodup child (h.parent he hchild)
    · exact h.apart he hback

/-- A successor that is new is entered, and hangs on the innermost block. -/
theorem enter {children : List String}
    (h : Traced succs entry tree ⟨s, ⟨node, child :: rest⟩ :: stack, node :: path⟩)
    (hnew : child ∉ s.visited) (hlookup : succs.lookup child = some children) :
    Traced succs entry ((node, child) :: tree) ⟨{ s with visited := child :: s.visited },
      ⟨child, children⟩ :: ⟨node, rest⟩ :: stack, child :: node :: path⟩ where
  onStack := congrArg (child :: ·) h.onStack
  nodup := List.nodup_cons.mpr ⟨fun hc => hnew (h.entered hc), h.nodup⟩
  rest := by
    intro f hf
    rcases List.mem_cons.mp hf with rfl | hf
    · dsimp only
      rw [next, hlookup]
      exact List.Subset.refl _
    · exact h.pass.rest hf
  branch := List.isChain_cons_cons.mpr
    ⟨List.mem_cons_self, h.branch.imp fun _ _ => List.mem_cons_of_mem _⟩
  entered := by
    intro x hx
    rcases List.mem_cons.mp hx with rfl | hx
    · exact List.mem_cons_self
    · exact List.mem_cons_of_mem _ (h.entered hx)
  visited := by
    intro x hx
    have hmono {a b : String} (hab : ReflTransGen (fun a b => (a, b) ∈ tree) a b) :
        ReflTransGen (fun a b => (a, b) ∈ (node, child) :: tree) a b :=
      hab.lift id fun _ _ => List.mem_cons_of_mem _
    rcases List.mem_cons.mp hx with rfl | hx
    · have hnode := (h.visited (h.entered List.mem_cons_self)).2
      exact ⟨Option.isSome_of_eq_some hlookup, (hmono hnode).tail List.mem_cons_self⟩
    · exact ⟨(h.visited hx).1, hmono (h.visited hx).2⟩
  edge := by
    intro a b hab
    rcases List.mem_cons.mp hab with hab | hab
    · cases hab
      exact ⟨h.rest List.mem_cons_self List.mem_cons_self, List.mem_cons_self⟩
    · exact ⟨(h.edge hab).1, List.mem_cons_of_mem _ (h.edge hab).2⟩
  parent := by
    intro a b hab hb
    rcases List.mem_cons.mp hab with hab | hab
    · cases hab
      exact (List.prefix_append [child, node] path).isInfix
    · rcases List.mem_cons.mp hb with rfl | hb
      · exact absurd (h.edge ‹(a, b) ∈ tree›).2 hnew
      · exact List.infix_cons (h.parent hab hb)
  back := by
    intro a b hab
    obtain ⟨hedge, ha, hb, hreach⟩ := h.back hab
    exact ⟨hedge, List.mem_cons_of_mem _ ha, List.mem_cons_of_mem _ hb,
      hreach.lift id fun _ _ => List.mem_cons_of_mem _⟩
  apart := by
    intro e he hback
    rcases List.mem_cons.mp he with rfl | he
    · exact hnew (h.back hback).2.2.1
    · exact h.apart he hback

/-- One step of the search. -/
theorem step (h : Traced succs entry tree m) (hm : m.step succs = .ok m') :
    ∃ tree, Traced succs entry tree m' := by
  obtain ⟨s, stack, onStack⟩ := m
  have hstack : onStack = stack.map Frame.node := h.onStack
  unfold Machine.step at hm
  dsimp only at hm
  split at hm
  · cases hm
    exact ⟨tree, h⟩
  · subst hstack
    cases hm
    rw [List.map_cons, List.erase_cons_head]
    exact ⟨tree, h.leave⟩
  · subst hstack
    split at hm
    · cases hm
      exact ⟨tree, h.close (List.contains_iff_mem.mp ‹_›)⟩
    split at hm
    · cases hm
      exact ⟨tree, h.pass⟩
    split at hm
    · cases hm
    · cases hm
      exact ⟨_, h.enter (fun hc => ‹¬ _› (List.contains_iff_mem.mpr hc)) ‹_›⟩

/-- Only a block without an entry stops the search. -/
theorem fault {f : Fault} (h : Traced succs entry tree m) (hm : m.step succs = .error f) :
    f = .missingEntry ∧ ∃ t, Reachable (next succs) entry t ∧ succs.lookup t = none := by
  obtain ⟨s, stack, onStack⟩ := m
  have hstack : onStack = stack.map Frame.node := h.onStack
  unfold Machine.step at hm
  dsimp only at hm
  split at hm
  · cases hm
  · cases hm
  · rename_i node child rest stack
    subst hstack
    split at hm
    · cases hm
    split at hm
    · cases hm
    split at hm
    · cases hm
      have hnode := (h.visited (h.entered List.mem_cons_self)).2
      have hlead : Reachable (next succs) entry node := hnode.lift id fun a b hab => (h.edge hab).1
      exact ⟨rfl, child, hlead.tail (h.rest List.mem_cons_self List.mem_cons_self), ‹_›⟩
    · cases hm

/-- The edges of the tree are no back edges. -/
theorem forward (h : Traced succs entry tree m) {a b : String}
    (hab : ReflTransGen (fun a b => (a, b) ∈ tree) a b) :
    ReflTransGen (Forward (next succs) m.back) a b :=
  hab.lift id fun _ _ he => ⟨(h.edge he).1, h.apart he⟩

/-- Where all blocks that are reached have been seen and all other edges go down, the back edges cut
the cycles. -/
theorem cuts (h : Traced succs entry tree m) {rank : String → Nat}
    (hseen : ∀ t, Reachable (next succs) entry t → t ∈ m.visited)
    (hrank : ∀ a, Reachable (next succs) entry a → ∀ b ∈ next succs a,
      (a, b) ∈ m.back ∨ rank b < rank a) : Cuts (next succs) entry m.back := by
  have hdown {a b : String} (ha : Reachable (next succs) entry a)
      (hab : Forward (next succs) m.back a b) : Reachable (next succs) entry b ∧ rank b < rank a :=
    ⟨ha.tail hab.1, (hrank a ha b hab.1).resolve_left hab.2⟩
  refine ⟨fun {t} ht hcycle => ?_, fun {u h'} hback => ?_, fun {u h'} hu hedge hdom => ?_⟩
  · have hlt {b : String} (hb : TransGen (Forward (next succs) m.back) t b) :
        Reachable (next succs) entry b ∧ rank b < rank t := by
      induction hb with
      | single hb => exact hdown ht hb
      | tail _ hc ih => exact ⟨(hdown ih.1 hc).1, (hdown ih.1 hc).2.trans ih.2⟩
    exact Nat.lt_irrefl _ (hlt hcycle).2
  · obtain ⟨hedge, hu, -, hreach⟩ := h.back hback
    exact ⟨hedge, (h.forward (h.visited hu).2).lift id fun _ _ he => he.1, h.forward hreach⟩
  · -- the dominator is on the branch of the tree, along which the rank goes down
    refine (hrank u hu h' hedge).resolve_right fun hlt => ?_
    obtain ⟨way, hway⟩ := Route.of_reaches (h.forward (h.visited (hseen u hu)).2)
    obtain ⟨before, after, -, hto, hfrom⟩ := hway.split (hdom way (hway.mono And.left))
    have hle {b : String} (hb : ReflTransGen (Forward (next succs) m.back) h' b) :
        Reachable (next succs) entry b ∧ rank b ≤ rank h' := by
      induction hb with
      | refl => exact ⟨(hto.mono And.left).reaches, Nat.le_refl _⟩
      | tail _ hc ih => exact ⟨(hdown ih.1 hc).1, (hdown ih.1 hc).2.le.trans ih.2⟩
    exact absurd (hle hfrom.reaches).2 (Nat.not_le.mpr hlt)

end Traced

/-! ### The whole search -/

/-- The search comes to all blocks that are reached. -/
theorem visited_of_reachable {succs : String → List String} {nodes : List String} {blocks : Nat}
    {t : String} (hnodes : ∀ a, ∀ b ∈ succs a, b ∈ nodes) (hentry : entry ∈ nodes)
    (hblocks : nodes.length ≤ blocks) (ht : Reachable succs entry t) :
    t ∈ (visit succs (blocks + 1) [entry] entry ⟨[entry], []⟩).visited := by
  obtain ⟨left, h⟩ := (search_onward hnodes hentry hblocks).1
  have hback {e : String × String}
      (he : e ∈ (visit succs (blocks + 1) [entry] entry ⟨[entry], []⟩).back) :
      e.2 ∈ (visit succs (blocks + 1) [entry] entry ⟨[entry], []⟩).visited :=
    h.knows.visited.mpr (h.knows.back he)
  induction ht with
  | refl => exact h.knows.visited.mpr (.inl List.mem_cons_self)
  | @tail a b _ hb ih =>
    rcases h.knows.visited.mp ih with ha | ha
    · cases List.mem_singleton.mp ha
      exact (h.seen hb).elim hback fun hl => h.knows.visited.mpr (.inr hl)
    · exact (h.knows.edges.rank ha hb).elim hback fun hl => h.knows.visited.mpr (.inr hl.1)

theorem Machine.run_entry {children : List String} {blocks : Nat}
    (h : succs.lookup entry = some children) (hblocks : succs.length ≤ blocks) :
    run succs (.start entry children) = .error .missingEntry ∨
      run succs (.start entry children) =
        .ok ⟨visit (next succs) (blocks + 1) [entry] entry ⟨[entry], []⟩, [], []⟩ := by
  have hrun := @run_frame succs blocks entry [entry] children [] ⟨[entry], []⟩
    (List.nodup_singleton entry)
    (List.cons_subset.mpr ⟨mem_keys h, List.nil_subset _⟩) (by rw [List.length_singleton]; omega)
  rw [run_leave] at hrun
  refine hrun.imp_right fun hrun => hrun.trans ?_
  rw [run, dif_pos rfl, visit_succ, next, h, Option.getD_some]

/-- How a search from the entry ends. -/
theorem run_start {children : List String} (hentry : succs.lookup entry = some children) :
    (∃ m tree, Machine.run succs (.start entry children) = .ok m ∧ Traced succs entry tree m ∧
      ∀ blocks, succs.length ≤ blocks →
        visit (next succs) (blocks + 1) [entry] entry ⟨[entry], []⟩ = m.toState) ∨
    (Machine.run succs (.start entry children) = .error .missingEntry ∧
      ∃ t, Reachable (next succs) entry t ∧ succs.lookup t = none) := by
  rcases Machine.run_cases (P := fun m => ∃ tree, Traced succs entry tree m)
    ⟨[], Traced.start hentry⟩ fun _ _ ⟨_, h⟩ hm => h.step hm with
    ⟨m, hrun, ⟨tree, h⟩, -⟩ | ⟨m, f, hrun, ⟨tree, h⟩, hm⟩
  · refine .inl ⟨m, tree, hrun, h, fun blocks hblocks => ?_⟩
    rcases Machine.run_entry hentry hblocks with he | he
    · cases hrun.symm.trans he
    · cases hrun.symm.trans he
      rfl
  · obtain ⟨rfl, hhole⟩ := h.fault hm
    exact .inr ⟨hrun, hhole⟩

end Search

open Search

section

variable {succs : Table String (List String)} {entry : String}

theorem backEdgesFromStack_eq {children : List String} (h : succs.lookup entry = some children) :
    backEdgesFromStack succs entry = (Machine.run succs (.start entry children)).map (·.back) := by
  rw [backEdgesFromStack, h]
  rfl

/-- The recursion finds the edges that the search from a stack finds, if no block without an entry is
reached. -/
theorem backEdgesFromStack_findBackEdges
    (h : ∀ t, Reachable (next succs) entry t → (succs.lookup t).isSome) {blocks : Nat}
    (hblocks : succs.length ≤ blocks) :
    backEdgesFromStack succs entry = .ok (findBackEdges (next succs) blocks entry) := by
  obtain ⟨children, hentry⟩ := Option.isSome_iff_exists.mp (h entry .refl)
  rw [backEdgesFromStack_eq hentry]
  rcases run_start hentry with ⟨m, tree, hrun, -, hvisit⟩ | ⟨-, t, ht, hnone⟩
  · rw [hrun, findBackEdges, hvisit blocks hblocks]
    rfl
  · have hsome := h t ht
    rw [hnone] at hsome
    cases hsome

end

/-- From every table of successors and every entry the search from a stack ends with a set of edges,
unless it comes to a block that has no entry in the table. The recursion finds the same edges. They
cut every cycle among the blocks that are reached; each closes a way along edges that are not cut; and
all edges to blocks that dominate their sources are among them. -/
theorem backEdgesFromStack_cuts (succs : Table String (List String)) (entry : String) :
    (∃ back, backEdgesFromStack succs entry = .ok back ∧
      (∀ t, Reachable (next succs) entry t → (succs.lookup t).isSome) ∧
      (∀ blocks, succs.length ≤ blocks → findBackEdges (next succs) blocks entry = back) ∧
      Cuts (next succs) entry back) ∨
    (backEdgesFromStack succs entry = .error .missingEntry ∧
      ∃ t, Reachable (next succs) entry t ∧ succs.lookup t = none) := by
  cases hentry : succs.lookup entry with
  | none => exact .inr ⟨by rw [backEdgesFromStack, hentry], entry, .refl, hentry⟩
  | some children =>
    rw [backEdgesFromStack_eq hentry]
    rcases run_start hentry with ⟨m, tree, hrun, h, hvisit⟩ | ⟨hrun, hhole⟩
    · rw [hrun]
      -- blocks without an entry count as well, since some may not be reached
      have hnodes : ∀ a, ∀ b ∈ next succs a, b ∈ succs.keys ++ succs.flatMap (·.2) := fun a b hb =>
        List.mem_append_right _ (mem_targets_of_next hb)
      have hmem : entry ∈ succs.keys ++ succs.flatMap (·.2) :=
        List.mem_append_left _ (Machine.mem_keys hentry)
      have hlength : succs.length ≤ (succs.keys ++ succs.flatMap (·.2)).length := by
        rw [List.length_append, Table.length_keys]
        exact Nat.le_add_right _ _
      have hseen : ∀ t, Reachable (next succs) entry t → t ∈ m.visited := fun t ht =>
        hvisit _ hlength ▸ visited_of_reachable hnodes hmem (Nat.le_refl _) ht
      have hback : ∀ blocks, succs.length ≤ blocks →
          findBackEdges (next succs) blocks entry = m.back := fun blocks hblocks =>
        congrArg State.back (hvisit blocks hblocks)
      obtain ⟨rank, top, hrank⟩ := findBackEdges_rank hnodes hmem (Nat.le_refl _)
      rw [hback _ hlength] at hrank
      exact .inl ⟨m.back, rfl, fun t ht => (h.visited (hseen t ht)).1, hback,
        h.cuts hseen fun a ha => (hrank a ha).2⟩
    · rw [hrun]
      exact .inr ⟨rfl, hhole⟩

end Flow

namespace Table

variable {κ α β : Type} [DecidableEq κ]

theorem keys_put (t : Table κ α) (key : κ) (value : α) :
    (t.put key value).keys = if key ∈ t.keys then t.keys else t.keys ++ [key] := by
  induction t with
  | nil => rfl
  | cons e t ih =>
    rw [put]
    by_cases h : e.1 = key
    · simp [h, keys]
    · rw [if_neg h, keys, List.map_cons, ← keys, ih]
      by_cases hkey : key ∈ keys t <;> simp_all [keys, Ne.symm h]

/-- The keys of a table are the same whatever is put under them. -/
theorem keys_foldl_put (f : β → κ) (g : β → α) (l : List β) (t : Table κ α) :
    (l.foldl (fun t e => t.put (f e) (g e)) t).keys =
      (l.map f).foldl (fun keys k => if k ∈ keys then keys else keys ++ [k]) t.keys := by
  induction l generalizing t with
  | nil => rfl
  | cons e l ih => rw [List.foldl_cons, ih, keys_put, List.map_cons, List.foldl_cons]

end Table

namespace Flow.Graph

open IR

variable {s : Sub} {g : Graph}

theorem keys_succs (h : ofSub s = .ok g) : g.succs.keys = g.blocks.keys := by
  unfold ofSub at h
  split at h
  · cases h
  cases h
  have htids : (follow s.blks).map (·.1.tid) = s.blks.map Blk.tid := by
    rw [← follow_fst s.blks, List.map_map, follow_fst]
    rfl
  dsimp only
  rw [Table.keys_foldl_put, Table.keys_foldl_put, fallthroughs_eq]
  simp only [List.map_map, Function.comp_def, htids]
  rfl

/-- The back edges of a subroutine are those that the search from a stack finds. -/
theorem backEdgesFromStack_ofSub (h : ofSub s = .ok g) :
    backEdgesFromStack g.succs g.entry = .ok g.backEdges := by
  have hg := searched_ofSub h
  have hkeys := keys_succs h
  rw [hg.backEdges]
  apply backEdgesFromStack_findBackEdges
  · intro t ht
    rw [← Table.mem_keys_iff, hkeys]
    cases ht with
    | refl => exact hg.entry
    | tail _ hb => exact hg.succs _ hb
  · rw [← Table.length_keys, hkeys, Table.length_keys]

end Flow.Graph

end Precond
