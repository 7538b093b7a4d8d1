import Precond.Proofs.Flow.Search

/-! The order in which the search for back edges leaves blocks. A block is left after its forward
successors, to which the search comes one by one. So much as had been left when a successor was entered
has been left when the search comes to it from any block, and a back edge leads to a block that was
entered no later than its source (`Search.Sequential`). This is what a walk needs to know that takes the
successors of a block in the same order but comes to blocks more often (`Graph.Ordered`). -/

namespace Precond.Flow

namespace Search

/-! ### Successors in order -/

/-- The blocks of a list are come to one by one, where `n` blocks of `left` have been left before and at
least `m` have been left afterwards. How many had been left when a block was entered is told by
`door`. -/
def Through (left : List String) (door : String → Nat) : Nat → List String → Nat → Prop
  | n, [], m => m ≤ n
  | n, t :: ts, m => t ∈ left ∧ door t ≤ n ∧ Through left door (max n (left.idxOf t + 1)) ts m

variable {left more path seen rest ts : List String} {door door' : String → Nat} {n m k : Nat}
  {t child entry : String} {back back' : List (String × String)} {succs : Table String (List String)}

theorem Through.snoc (h : Through left door n ts m) (ht : t ∈ left) (hd : door t ≤ m)
    (hk : k ≤ max m (left.idxOf t + 1)) : Through left door n (ts ++ [t]) k := by
  induction ts generalizing n with
  | nil =>
    have hm : m ≤ n := h
    exact ⟨ht, hd.trans hm, by show k ≤ max n (left.idxOf t + 1); omega⟩
  | cons u ts ih => exact ⟨h.1, h.2.1, ih h.2.2⟩

theorem Through.grow (h : Through left door n ts m) (hd : ∀ x ∈ left, door' x = door x) :
    Through (left ++ more) door' n ts m := by
  induction ts generalizing n with
  | nil => exact h
  | cons u ts ih =>
    obtain ⟨hu, hdoor, hrest⟩ := h
    refine ⟨List.mem_append_left _ hu, hd u hu ▸ hdoor, ?_⟩
    rw [List.idxOf_append_of_mem hu]
    exact ih hrest

theorem Through.congr (h : Through left door n ts m) (hd : ∀ x ∈ left, door' x = door x) :
    Through left door' n ts m := by
  rw [← List.append_nil left]
  exact h.grow hd

/-! ### Blocks on the stack -/

/-- Of the successors of `t`, those in `seen` have been looked at; those on the path are at the ends of
back edges, and the others have been left, so that `n` blocks have been left now. -/
structure Looked (left : List String) (door : String → Nat) (back : List (String × String))
    (path : List String) (t : String) (seen : List String) (n : Nat) : Prop where
  through : Through left door (door t) (seen.filter fun s => !path.contains s) n
  closed (h : String) : (t, h) ∈ back ↔ h ∈ seen ∧ h ∈ path

/-- The search has come to `child` from the innermost block of a stack. -/
def Hangs (succs : Table String (List String)) (left : List String) (door : String → Nat)
    (back : List (String × String)) (child : String) : List Frame → Prop
  | [] => True
  | ⟨t, rest⟩ :: below =>
    (∃ seen, next succs t = seen ++ child :: rest ∧
      Looked left door back (t :: below.map Frame.node) t seen (door child)) ∧
    door t ≤ door child ∧ Hangs succs left door back t below

theorem Looked.grow (h : Looked left door back path t seen n)
    (hd : ∀ x, x = t ∨ x ∈ left → door' x = door x) (hb : ∀ h, (t, h) ∈ back' ↔ (t, h) ∈ back) :
    Looked (left ++ more) door' back' path t seen n where
  through := by
    rw [hd t (.inl rfl)]
    exact h.through.grow fun x hx => hd x (.inr hx)
  closed x := (hb x).trans (h.closed x)

/-- One more successor is looked at: it is on the path. -/
theorem Looked.close (h : Looked left door back path t seen n) (hc : child ∈ path) :
    Looked left door ((t, child) :: back) path t (seen ++ [child]) n where
  through := by
    rw [List.filter_append, List.filter_singleton, List.contains_iff_mem.mpr hc]
    exact (List.append_nil _).symm ▸ h.through
  closed x := by
    rw [List.mem_cons, h.closed, Prod.mk.injEq, List.mem_append, List.mem_singleton]
    constructor
    · rintro (⟨-, rfl⟩ | ⟨hx, hp⟩)
      · exact ⟨.inr rfl, hc⟩
      · exact ⟨.inl hx, hp⟩
    · rintro ⟨hx | rfl, hp⟩
      · exact .inr ⟨hx, hp⟩
      · exact .inl ⟨rfl, rfl⟩

/-- One more successor is looked at: it has been left. -/
theorem Looked.pass (h : Looked left door back path t seen n) (hc : child ∉ path) (hl : child ∈ left)
    (hd : door child ≤ n) (hm : m ≤ max n (left.idxOf child + 1)) :
    Looked left door back path t (seen ++ [child]) m where
  through := by
    rw [List.filter_append, List.filter_singleton,
      Bool.eq_false_iff.mpr fun hp => hc (List.contains_iff_mem.mp hp)]
    exact h.through.snoc hl hd hm
  closed x := by
    rw [h.closed, List.mem_append, List.mem_singleton]
    refine ⟨fun ⟨hx, hp⟩ => ⟨.inl hx, hp⟩, fun ⟨hx, hp⟩ => ⟨hx.resolve_right ?_, hp⟩⟩
    rintro rfl
    exact hc hp

theorem Hangs.grow {stack : List Frame} (h : Hangs succs left door back child stack)
    (hd : ∀ x, x = child ∨ x ∈ stack.map Frame.node ∨ x ∈ left → door' x = door x)
    (hb : ∀ x ∈ stack.map Frame.node, ∀ h, (x, h) ∈ back' ↔ (x, h) ∈ back) :
    Hangs succs (left ++ more) door' back' child stack := by
  induction stack generalizing child with
  | nil => trivial
  | cons f below ih =>
    obtain ⟨t, rest⟩ := f
    obtain ⟨⟨seen, hseen, hlooked⟩, hle, hbelow⟩ := h
    have hchild : door' child = door child := hd child (.inl rfl)
    have ht : door' t = door t := hd t (.inr (.inl List.mem_cons_self))
    refine ⟨⟨seen, hseen, ?_⟩, by rw [ht, hchild]; exact hle, ih hbelow (fun x hx => hd x ?_) fun x hx =>
      hb x (List.mem_cons_of_mem _ hx)⟩
    · rw [hchild]
      refine hlooked.grow (fun x hx => hd x ?_) (hb t List.mem_cons_self)
      exact hx.elim (fun h => .inr (.inl (h ▸ List.mem_cons_self))) fun h => .inr (.inr h)
    · exact .inr (hx.elim (fun h => .inl (h ▸ List.mem_cons_self))
        (.imp_left fun h => List.mem_cons_of_mem _ h))

theorem Hangs.congr {stack : List Frame} (h : Hangs succs left door back child stack)
    (hd : ∀ x, x = child ∨ x ∈ stack.map Frame.node ∨ x ∈ left → door' x = door x)
    (hb : ∀ x ∈ stack.map Frame.node, ∀ h, (x, h) ∈ back' ↔ (x, h) ∈ back) :
    Hangs succs left door' back' child stack := by
  rw [← List.append_nil left]
  exact h.grow hd hb

/-- The blocks below have been entered before. -/
theorem Hangs.door_le {stack : List Frame} (h : Hangs succs left door back child stack) {x : String}
    (hx : x ∈ stack.map Frame.node) : door x ≤ door child := by
  induction stack generalizing child with
  | nil => cases hx
  | cons f below ih =>
    rcases List.mem_cons.mp hx with rfl | hx
    · exact h.2.1
    · exact (ih h.2.2 hx).trans h.2.1

/-! ### The search -/

/-- The blocks in the order in which the search has left them so far. -/
structure Sequential (succs : Table String (List String)) (entry : String) (left : List String)
    (door : String → Nat) (m : Machine) : Prop where
  nodup : left.Nodup
  visited : x ∈ m.visited ↔ x ∈ m.onStack ∨ x ∈ left
  apart : x ∈ left → x ∉ m.onStack
  first : door entry = 0
  last : m.onStack.getLast? = some entry ∨ m.onStack = [] ∧ left.getLast? = some entry
  early : x ∈ left → door x ≤ left.idxOf x
  turn : x ∈ left →
    Through left door (door x) ((next succs x).filter fun s => !m.back.contains (x, s)) (left.idxOf x)
  back : x ∈ left → (x, h) ∈ m.back → door h ≤ door x
  top {t rest below} : m.stack = ⟨t, rest⟩ :: below →
    (∃ seen, next succs t = seen ++ rest ∧
      Looked left door m.back (t :: below.map Frame.node) t seen left.length) ∧
    door t ≤ left.length ∧ Hangs succs left door m.back t below

namespace Sequential

variable {m m' : Machine} {s : State} {stack : List Frame} {tree : List (String × String)} {node : String}

theorem start {children : List String} (h : succs.lookup entry = some children) :
    Sequential succs entry [] (fun _ => 0) (.start entry children) where
  nodup := .nil
  visited := ⟨.inl, fun h => h.resolve_right List.not_mem_nil⟩
  apart h := nomatch h
  first := rfl
  last := .inl rfl
  early h := nomatch h
  turn h := nomatch h
  back h := nomatch h
  top h := by
    cases h
    refine ⟨⟨[], ?_, Nat.le_refl _, fun _ => ⟨nofun, fun hs => nomatch hs.1⟩⟩,
      Nat.le_refl _, True.intro⟩
    rw [next, h, Option.getD_some, List.nil_append]

/-- The innermost block is left. -/
theorem leave (ht : Traced succs entry tree ⟨s, ⟨node, []⟩ :: stack, node :: path⟩)
    (h : Sequential succs entry left door ⟨s, ⟨node, []⟩ :: stack, node :: path⟩) :
    Sequential succs entry (left ++ [node]) door ⟨s, stack, path⟩ := by
  have hpath : path = stack.map Frame.node := (List.cons.inj ht.onStack).2
  have hnew : node ∉ path := (List.nodup_cons.mp ht.nodup).1
  have hnode : node ∉ left := fun hl => h.apart hl List.mem_cons_self
  have hidx : (left ++ [node]).idxOf node = left.length := by
    rw [List.idxOf_append_of_notMem hnode, List.idxOf_cons_self, Nat.add_zero]
  obtain ⟨⟨seen, hseen, hlooked⟩, hdoor, hhangs⟩ := h.top rfl
  rw [List.append_nil] at hseen
  rw [← hpath] at hlooked
  exact {
    nodup := List.nodup_append.mpr ⟨h.nodup, List.nodup_singleton _, fun a ha b hb hab => by
      cases List.mem_singleton.mp hb
      exact hnode (hab ▸ ha)⟩
    visited := fun {x} => by
      rw [h.visited, List.mem_cons, List.mem_append, List.mem_singleton]
      tauto
    apart := fun {x} hx hp => by
      rcases List.mem_append.mp hx with hx | hx
      · exact h.apart hx (List.mem_cons_of_mem _ hp)
      · cases List.mem_singleton.mp hx
        exact hnew hp
    first := h.first
    last := by
      rcases path with _ | ⟨q, path⟩
      · refine .inr ⟨rfl, ?_⟩
        rw [List.getLast?_concat]
        exact h.last.resolve_right fun hs => nomatch hs.1
      · refine .inl ?_
        rw [← List.getLast?_cons_cons]
        exact h.last.resolve_right fun hs => nomatch hs.1
    early := fun {x} hx => by
      rcases List.mem_append.mp hx with hx | hx
      · rw [List.idxOf_append_of_mem hx]
        exact h.early hx
      · cases List.mem_singleton.mp hx
        rwa [hidx]
    turn := fun {x} hx => by
      rcases List.mem_append.mp hx with hx | hx
      · rw [List.idxOf_append_of_mem hx]
        exact (h.turn hx).grow fun _ _ => rfl
      · cases List.mem_singleton.mp hx
        rw [hidx, hseen]
        have hfilter : (seen.filter fun t => !s.back.contains (node, t)) =
            seen.filter fun t => !(node :: path).contains t := by
          refine List.filter_congr fun t hmem => congrArg (!·) (Bool.eq_iff_iff.mpr ?_)
          rw [List.contains_iff_mem, List.contains_iff_mem, hlooked.closed]
          exact ⟨And.right, fun hp => ⟨hmem, hp⟩⟩
        rw [hfilter]
        exact hlooked.through.grow fun _ _ => rfl
    back := fun {x y} hx hb => by
      rcases List.mem_append.mp hx with hx | hx
      · exact h.back hx hb
      · cases List.mem_singleton.mp hx
        rcases List.mem_cons.mp ((hlooked.closed y).mp hb).2 with rfl | hy
        · exact Nat.le_refl _
        · exact hhangs.door_le (hpath ▸ hy)
    top := fun {t rest below} hstack => by
      subst hstack
      obtain ⟨⟨seen', hseen', hlooked'⟩, hle, hbelow⟩ := hhangs
      have hnew' : node ∉ t :: below.map Frame.node := fun hn => hnew (hpath.symm ▸ hn)
      refine ⟨⟨seen' ++ [node], by rw [hseen', List.append_assoc]; rfl, ?_⟩, ?_, ?_⟩
      · refine (hlooked'.grow (fun _ _ => rfl) fun _ => Iff.rfl).pass hnew'
          (List.mem_append_right _ (List.mem_singleton_self _)) (Nat.le_refl _) ?_
        rw [hidx, List.length_append, List.length_singleton]
        exact Nat.le_max_right ..
      · rw [List.length_append]
        omega
      · exact hbelow.grow (fun _ _ => rfl) fun _ _ _ => Iff.rfl }

/-- A successor on the path is at the end of a back edge. -/
theorem close (ht : Traced succs entry tree ⟨s, ⟨node, child :: rest⟩ :: stack, node :: path⟩)
    (h : Sequential succs entry left door ⟨s, ⟨node, child :: rest⟩ :: stack, node :: path⟩)
    (hc : child ∈ node :: path) : Sequential succs entry left door
      ⟨{ s with back := (node, child) :: s.back }, ⟨node, rest⟩ :: stack, node :: path⟩ := by
  have hpath : path = stack.map Frame.node := (List.cons.inj ht.onStack).2
  have hother {x y : String} (hx : x ≠ node) : (x, y) ∈ (node, child) :: s.back ↔ (x, y) ∈ s.back := by
    rw [List.mem_cons, Prod.mk.injEq]
    exact ⟨fun hb => hb.resolve_left fun hb => hx hb.1, .inr⟩
  have hne {x : String} (hx : x ∈ left) : x ≠ node := by
    rintro rfl
    exact h.apart hx List.mem_cons_self
  obtain ⟨⟨seen, hseen, hlooked⟩, hdoor, hhangs⟩ := h.top rfl
  exact {
    nodup := h.nodup
    visited := h.visited
    apart := h.apart
    first := h.first
    last := h.last
    early := h.early
    turn := fun {x} hx => by
      have hfilter : ((next succs x).filter fun t => !((node, child) :: s.back).contains (x, t)) =
          (next succs x).filter fun t => !s.back.contains (x, t) := by
        refine List.filter_congr fun t _ => congrArg (!·) (Bool.eq_iff_iff.mpr ?_)
        rw [List.contains_iff_mem, List.contains_iff_mem, hother (hne hx)]
      rw [hfilter]
      exact h.turn hx
    back := fun hx hb => h.back hx ((hother (hne hx)).mp hb)
    top := fun hstack => by
      cases hstack
      refine ⟨⟨seen ++ [child], by rw [hseen, List.append_assoc]; rfl, hlooked.close (hpath ▸ hc)⟩, hdoor,
        ?_⟩
      exact hhangs.congr (fun _ _ => rfl) fun x hx y =>
        hother fun hxn => (List.nodup_cons.mp ht.nodup).1 (hpath ▸ hxn ▸ hx) }

/-- A successor that has been left is passed by. -/
theorem pass (ht : Traced succs entry tree ⟨s, ⟨node, child :: rest⟩ :: stack, path⟩)
    (h : Sequential succs entry left door ⟨s, ⟨node, child :: rest⟩ :: stack, path⟩)
    (hc : child ∉ path) (hv : child ∈ s.visited) :
    Sequential succs entry left door ⟨s, ⟨node, rest⟩ :: stack, path⟩ where
  __ := h
  top hstack := by
    cases hstack
    obtain ⟨⟨seen, hseen, hlooked⟩, hdoor, hhangs⟩ := h.top rfl
    have hleft : child ∈ left := (h.visited.mp hv).resolve_left hc
    have hidx : left.idxOf child < left.length := List.idxOf_lt_length_of_mem hleft
    have hpath : path = node :: stack.map Frame.node := ht.onStack
    refine ⟨⟨seen ++ [child], by rw [hseen, List.append_assoc]; rfl, ?_⟩, hdoor, hhangs⟩
    exact hlooked.pass (hpath ▸ hc) hleft ((h.early hleft).trans hidx.le) (Nat.le_max_left ..)

/-- A successor that is new is entered. -/
theorem enter {children : List String}
    (ht : Traced succs entry tree ⟨s, ⟨node, child :: rest⟩ :: stack, node :: path⟩)
    (h : Sequential succs entry left door ⟨s, ⟨node, child :: rest⟩ :: stack, node :: path⟩)
    (hnew : child ∉ s.visited) (hlookup : succs.lookup child = some children) :
    Sequential succs entry left (Function.update door child left.length)
      ⟨{ s with visited := child :: s.visited }, ⟨child, children⟩ :: ⟨node, rest⟩ :: stack,
        child :: node :: path⟩ := by
  have hpath : path = stack.map Frame.node := (List.cons.inj ht.onStack).2
  have hold {x : String} (hx : x ∈ s.visited) : Function.update door child left.length x = door x :=
    Function.update_of_ne (fun hxc : x = child => hnew (hxc ▸ hx)) ..
  have hleft {x : String} (hx : x ∈ left) : x ∈ s.visited := h.visited.mpr (.inr hx)
  have hgrow {n k : Nat} {ts : List String} (h : Through left door n ts k) :
      Through left (Function.update door child left.length) n ts k := h.congr fun _ hx => hold (hleft hx)
  have hlast : (node :: path).getLast? = some entry :=
    h.last.resolve_right fun hs => absurd hs.1 (List.cons_ne_nil _ _)
  obtain ⟨⟨seen, hseen, hlooked⟩, hdoor, hhangs⟩ := h.top rfl
  have hstack {x : String} (hx : x = node ∨ x ∈ stack.map Frame.node ∨ x ∈ left) : x ∈ s.visited := by
    rcases hx with rfl | hx | hx
    · exact ht.entered List.mem_cons_self
    · exact ht.entered (List.mem_cons_of_mem _ (hpath ▸ hx))
    · exact hleft hx
  exact {
    nodup := h.nodup
    visited := fun {x} => by
      rw [List.mem_cons, List.mem_cons, h.visited, or_assoc]
    apart := fun {x} hx hp => by
      rcases List.mem_cons.mp hp with rfl | hp
      · exact hnew (hleft hx)
      · exact h.apart hx hp
    first := (hold (h.visited.mpr (.inl (List.mem_of_getLast? hlast)))).trans h.first
    last := .inl (by rwa [List.getLast?_cons_cons])
    early := fun hx => hold (hleft hx) ▸ h.early hx
    turn := fun hx => by
      rw [hold (hleft hx)]
      exact hgrow (h.turn hx)
    back := fun hx hb => by
      rw [hold (hleft hx), hold (ht.back hb).2.2.1]
      exact h.back hx hb
    top := fun htop => by
      cases htop
      have hself : Function.update door child left.length child = left.length := Function.update_self ..
      refine ⟨⟨[], by rw [next, hlookup]; rfl, ?_, fun y => ?_⟩, hself.le, ⟨seen, hseen, ?_⟩, ?_, ?_⟩
      · rw [hself]
        exact Nat.le_refl _
      · exact ⟨fun hb => absurd (ht.back hb).2.1 hnew, fun hs => absurd hs.1 List.not_mem_nil⟩
      · rw [hself]
        refine ⟨?_, hlooked.closed⟩
        rw [hold (hstack (.inl rfl))]
        exact hgrow hlooked.through
      · rw [hself, hold (hstack (.inl rfl))]
        exact hdoor
      · exact hhangs.congr (fun _ hx => hold (hstack hx)) fun _ _ _ => Iff.rfl }

/-- One step of the search. -/
theorem step (ht : Traced succs entry tree m) (h : Sequential succs entry left door m)
    (hm : m.step succs = .ok m') : ∃ left door, Sequential succs entry left door m' := by
  obtain ⟨s, stack, onStack⟩ := m
  have hstack : onStack = stack.map Frame.node := ht.onStack
  unfold Machine.step at hm
  dsimp only at hm
  split at hm
  · cases hm
    exact ⟨left, door, h⟩
  · subst hstack
    cases hm
    rw [List.map_cons, List.erase_cons_head]
    exact ⟨_, door, h.leave ht⟩
  · subst hstack
    split at hm
    · cases hm
      exact ⟨left, door, h.close ht (List.contains_iff_mem.mp ‹_›)⟩
    rename_i hpath
    split at hm
    · cases hm
      exact ⟨left, door, h.pass ht (fun hc => hpath (List.contains_iff_mem.mpr hc))
        (List.contains_iff_mem.mp ‹_›)⟩
    split at hm
    · cases hm
    · cases hm
      exact ⟨left, _, h.enter ht (fun hc => ‹¬ _› (List.contains_iff_mem.mpr hc)) ‹_›⟩

end Sequential

end Search

open Search

/-- The blocks that are reached, in an order in which each comes after its forward successors. When a
block is come to first, so many come before it as `door` tells. -/
structure Graph.Ordered (g : Graph) (order : List String) (door : String → Nat) : Prop where
  nodup : order.Nodup
  first : door g.entry = 0
  last : order.getLast? = some g.entry
  turn : t ∈ order → Through order door (door t) (g.forward t) (order.idxOf t)
  back : t ∈ order → g.isBackEdge t h → h ∈ order ∧ door h ≤ door t

/-- The search for back edges puts the blocks in order. -/
theorem Graph.exists_ordered {s : IR.Sub} {g : Graph} (h : ofSub s = .ok g) :
    ∃ order door, g.Ordered order door := by
  have hback := backEdgesFromStack_ofSub h
  cases hentry : g.succs.lookup g.entry with
  | none =>
    rw [backEdgesFromStack, hentry] at hback
    cases hback
  | some children =>
  rw [backEdgesFromStack_eq hentry] at hback
  let P (m : Machine) : Prop :=
    ∃ tree left door, Traced g.succs g.entry tree m ∧ Sequential g.succs g.entry left door m
  have hstep (m m' : Machine) (h : P m) (hm : m.step g.succs = .ok m') : P m' := by
    obtain ⟨tree, left, door, ht, hs⟩ := h
    obtain ⟨tree', ht'⟩ := ht.step hm
    obtain ⟨left', door', hs'⟩ := hs.step ht hm
    exact ⟨tree', left', door', ht', hs'⟩
  rcases Machine.run_cases (P := P) ⟨[], [], _, .start hentry, .start hentry⟩ hstep with
    ⟨m, hrun, ⟨tree, order, door, ht, hs⟩, hstack⟩ | ⟨m, f, hrun, -⟩
  · rw [hrun] at hback
    have hback : m.back = g.backEdges := Except.ok.inj hback
    have honStack : m.onStack = [] := by rw [ht.onStack, hstack]; rfl
    refine ⟨order, door, hs.nodup, hs.first, ?_, fun {t} hm => ?_, fun {t x} hm hb => ?_⟩
    · rcases hs.last with hl | hl
      · rw [honStack] at hl
        cases hl
      · exact hl.2
    · have hturn := hs.turn hm
      rw [hback] at hturn
      exact hturn
    · have hb : (t, x) ∈ m.back := hback ▸ List.contains_iff_mem.mp hb
      refine ⟨?_, hs.back hm hb⟩
      have hx := hs.visited.mp (ht.back hb).2.2.1
      rw [honStack] at hx
      exact hx.resolve_left List.not_mem_nil
  · rw [hrun] at hback
    cases hback

end Precond.Flow
