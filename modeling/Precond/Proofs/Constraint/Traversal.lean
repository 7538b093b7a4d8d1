import Precond.Constraint.Listing
import Precond.Proofs.Constraint.Formula

/-! Walking and printing constraints from stacks. The stacks do what the recursions do
(`Constr.nodesFromStack_eq`, `Constr.textFromStack_eq`). A walk takes each node once, and what has been
taken stays closed up to the nodes on the stack, so that in the end it takes all parts
(`Numbered.mem_nodesFromStack`). -/

namespace Precond.Constr

variable {K : Constr → Prop} {c d : Constr}

/-! ### Stack and recursion -/

section Recursion

variable {p p₁ p₂ : Page} {is js : List Item}

/-- The recursion puts the lines on a page that the stack gives for some items. -/
def Adds (items : List Item) (p p' : Page) : Prop :=
  ∃ ls : List Line, p'.lines = (ls.map Line.toText).reverse ++ p.lines ∧
    ∀ rest, list (items ++ rest) p.labels = ls ++ list rest p'.labels

theorem Adds.nil : Adds [] p p := ⟨[], rfl, fun _ => rfl⟩

theorem Adds.append (h₁ : Adds is p p₁) (h₂ : Adds js p₁ p₂) : Adds (is ++ js) p p₂ := by
  obtain ⟨ls₁, hlines₁, hlist₁⟩ := h₁
  obtain ⟨ls₂, hlines₂, hlist₂⟩ := h₂
  refine ⟨ls₁ ++ ls₂, ?_, fun rest => ?_⟩
  · simp [hlines₁, hlines₂]
  · rw [List.append_assoc, hlist₁, hlist₂, List.append_assoc]

theorem Adds.title (depth : Nat) (text : String) : Adds [.title depth text] p (p.line depth text) :=
  ⟨[.title depth text], rfl, fun rest => by simp [list, Page.line]⟩

theorem Adds.node {below : Page → Page} (h : ∀ p, Adds (content depth c) p (below p)) (p : Page) :
    Adds [.node depth c] p (Page.node c.id depth c.head below p) := by
  unfold Page.node
  split
  · rename_i n hn
    exact ⟨[.reference depth n c], rfl, fun rest => by simp [list, hn, Page.line]⟩
  · rename_i hn
    obtain ⟨ls, hlines, hlist⟩ := h
      (Page.line depth ("#" ++ toString p.labels.size ++ " " ++ c.head)
        { p with labels := p.labels.insert c.id p.labels.size })
    refine ⟨.full depth p.labels.size c :: ls, ?_, fun rest => ?_⟩
    · rw [hlines]
      simp [Page.line, Line.toText]
    · rw [List.singleton_append, list, hn, List.cons_append]
      exact congrArg _ (hlist rest)

mutual

theorem adds_print (depth : Nat) : (c : Constr) → (p : Page) → Adds [.node depth c] p (c.print depth p)
  | goal id name value tid, p => by
    rw [print]
    exact Adds.node (c := goal id name value tid) (fun _ => .nil) p
  | clause id hyps goals, p => by
    rw [print]
    refine Adds.node (c := clause id hyps goals) (fun p => ?_) p
    have hhyps : Adds
        (if hyps.isEmpty then [] else .title depth " hyps:" :: hyps.map (.node (depth + 1))) p
        (if hyps.isEmpty then p else printAll (depth + 1) hyps (p.line depth " hyps:")) := by
      split
      · exact .nil
      · exact (Adds.title ..).append (adds_printAll (depth + 1) hyps _)
    exact hhyps.append ((Adds.title ..).append (adds_printAll (depth + 1) goals _))
  | branch id jump cond yes no, p => by
    rw [print]
    exact Adds.node (c := branch id jump cond yes no)
      (fun p => (adds_print (depth + 1) yes p).append (adds_print (depth + 1) no _)) p
  | subst id body pairs, p => by
    rw [print]
    exact Adds.node (c := subst id body pairs) (fun p => adds_print (depth + 1) body p) p

theorem adds_printAll (depth : Nat) :
    (cs : List Constr) → (p : Page) → Adds (cs.map (.node depth)) p (printAll depth cs p)
  | [], p => by
    rw [printAll]
    exact .nil
  | c :: cs, p => by
    rw [printAll]
    exact (adds_print depth c p).append (adds_printAll depth cs _)

end

theorem textFromStack_eq (c : Constr) : c.textFromStack = c.toText := by
  obtain ⟨ls, hlines, hlist⟩ := adds_print 0 c ⟨{}, []⟩
  have hls : c.lines = ls := by
    simpa [lines, list] using hlist []
  simp [textFromStack, toText, hls, hlines]

/-- The recursion takes the nodes that are taken from some nodes on the stack. -/
def Takes (cs : List Constr) (s s' : Met) : Prop :=
  ∃ ds, s'.nodes = ds.reverse ++ s.nodes ∧ ∀ rest, walk (cs ++ rest) s.seen = ds ++ walk rest s'.seen

variable {s s₁ s₂ : Met} {cs ds : List Constr}

theorem Takes.nil : Takes [] s s := ⟨[], rfl, fun _ => rfl⟩

theorem Takes.append (h₁ : Takes cs s s₁) (h₂ : Takes ds s₁ s₂) : Takes (cs ++ ds) s s₂ := by
  obtain ⟨es₁, hnodes₁, hwalk₁⟩ := h₁
  obtain ⟨es₂, hnodes₂, hwalk₂⟩ := h₂
  refine ⟨es₁ ++ es₂, ?_, fun rest => ?_⟩
  · simp [hnodes₁, hnodes₂]
  · rw [List.append_assoc, hwalk₁, hwalk₂, List.append_assoc]

theorem Takes.node (s' : Met) (h : Takes c.children.reverse ⟨s.seen.insert c.id, c :: s.nodes⟩ s') :
    Takes [c] s (if s.seen.contains c.id then s else s') := by
  split
  · rename_i hseen
    exact ⟨[], rfl, fun rest => by rw [List.singleton_append, walk, if_pos hseen, List.nil_append]⟩
  · rename_i hseen
    obtain ⟨ds, hnodes, hwalk⟩ := h
    refine ⟨c :: ds, by simp [hnodes], fun rest => ?_⟩
    rw [List.singleton_append, walk, if_neg hseen, hwalk, List.cons_append]

mutual

theorem takes_meet : (c : Constr) → (s : Met) → Takes [c] s (c.meet s)
  | goal id name value tid, s => by
    rw [meet]
    exact Takes.node (c := goal id name value tid) _ .nil
  | clause id hyps goals, s => by
    rw [meet]
    refine Takes.node (c := clause id hyps goals) _ ?_
    rw [children, List.reverse_append]
    exact (takes_meetLastFirst goals _).append (takes_meetLastFirst hyps _)
  | branch id jump cond yes no, s => by
    rw [meet]
    exact Takes.node (c := branch id jump cond yes no) _ ((takes_meet no _).append (takes_meet yes _))
  | subst id body pairs, s => by
    rw [meet]
    exact Takes.node (c := subst id body pairs) _ (takes_meet body _)

theorem takes_meetLastFirst :
    (cs : List Constr) → (s : Met) → Takes cs.reverse s (meetLastFirst cs s)
  | [], s => by
    rw [meetLastFirst]
    exact .nil
  | c :: cs, s => by
    rw [meetLastFirst, List.reverse_cons]
    exact (takes_meetLastFirst cs s).append (takes_meet c _)

end

theorem nodesFromStack_eq (c : Constr) : c.nodesFromStack = c.nodes := by
  obtain ⟨ds, hnodes, hwalk⟩ := takes_meet c ⟨{}, []⟩
  have hds : c.nodesFromStack = ds := by
    simpa [nodesFromStack, walk] using hwalk []
  simp [hds, nodes, hnodes]

end Recursion

/-! ### Walking -/

section Walking

variable {rest : List Constr} {seen : Std.HashSet Nat}

theorem walk_nodup (stack : List Constr) (seen : Std.HashSet Nat) :
    ((walk stack seen).map Constr.id).Nodup ∧ ∀ d ∈ walk stack seen, d.id ∉ seen := by
  fun_induction walk with
  | case1 => exact ⟨List.nodup_nil, nofun⟩
  | case2 => assumption
  | case3 c rest seen hc ih =>
    obtain ⟨hnodup, hnew⟩ := ih
    refine ⟨List.nodup_cons.mpr ⟨fun hmem => ?_, hnodup⟩, fun d hd hmem => ?_⟩
    · obtain ⟨d, hd, hid⟩ := List.mem_map.mp hmem
      exact hnew d hd (hid ▸ Std.HashSet.mem_insert_self)
    · rcases List.mem_cons.mp hd with rfl | hd
      · exact hc hmem
      · exact hnew d hd (Std.HashSet.mem_insert.mpr (.inr hmem))

theorem part_of_mem_walk (stack : List Constr) (seen : Std.HashSet Nat) (h : d ∈ walk stack seen) :
    ∃ c ∈ stack, Part c d := by
  fun_induction walk with
  | case1 => cases h
  | case2 c rest seen _ ih =>
    obtain ⟨e, he, hp⟩ := ih h
    exact ⟨e, List.mem_cons_of_mem _ he, hp⟩
  | case3 c rest seen _ ih =>
    rcases List.mem_cons.mp h with rfl | h
    · exact ⟨d, List.mem_cons_self, .refl⟩
    · obtain ⟨e, he, hp⟩ := ih h
      rcases List.mem_append.mp he with he | he
      · exact ⟨c, List.mem_cons_self, .head (List.mem_reverse.mp he) hp⟩
      · exact ⟨e, List.mem_cons_of_mem _ he, hp⟩

/-- A set of numbers holds those of the parts of its nodes, up to some nodes that are on a stack. -/
def Closed (K : Constr → Prop) (S : Nat → Prop) (stack : List Constr) : Prop :=
  ∀ c, K c → S c.id → ∀ d ∈ c.children, S d.id ∨ d ∈ stack

theorem Closed.drop (h : Closed K (· ∈ seen) (c :: rest)) (hc : c.id ∈ seen) :
    Closed K (· ∈ seen) rest := by
  intro d hd hm e he
  rcases h d hd hm e he with hm | hm
  · exact .inl hm
  · rcases List.mem_cons.mp hm with rfl | hm
    · exact .inl hc
    · exact .inr hm

/-- A node that is taken leaves its parts on the stack. -/
theorem Numbered.closed_insert (hK : Numbered K) (hc : K c)
    (h : Closed K (· ∈ seen) (c :: rest)) :
    Closed K (· ∈ seen.insert c.id) (c.children.reverse ++ rest) := by
  intro d hd hm e he
  rcases Std.HashSet.mem_insert.mp hm with hid | hm
  · cases hK.inj hc hd (eq_of_beq hid)
    exact .inr (List.mem_append_left _ (List.mem_reverse.mpr he))
  · rcases h d hd hm e he with hm | hm
    · exact .inl (Std.HashSet.mem_insert.mpr (.inr hm))
    · rcases List.mem_cons.mp hm with rfl | hm
      · exact .inl Std.HashSet.mem_insert_self
      · exact .inr (List.mem_append_right _ hm)

/-- Once the stack is empty, the nodes on it have been taken, and with each node its parts. -/
theorem Numbered.walk_closed (hK : Numbered K) (stack : List Constr) (seen : Std.HashSet Nat)
    (hs : ∀ c ∈ stack, K c) (hc : Closed K (· ∈ seen) stack) :
    Closed K (fun i => i ∈ seen ∨ i ∈ (walk stack seen).map Constr.id) [] ∧
      ∀ c ∈ stack, c.id ∈ seen ∨ c.id ∈ (walk stack seen).map Constr.id := by
  fun_induction walk with
  | case1 seen => exact ⟨by simpa using hc, nofun⟩
  | case2 c rest seen hseen ih =>
    obtain ⟨hclosed, hrest⟩ := ih (fun d hd => hs d (List.mem_cons_of_mem _ hd)) (hc.drop hseen)
    refine ⟨hclosed, fun d hd => ?_⟩
    rcases List.mem_cons.mp hd with rfl | hd
    · exact .inl hseen
    · exact hrest d hd
  | case3 c rest seen _ ih =>
    have hroot := hs c List.mem_cons_self
    have hstack : ∀ d ∈ c.children.reverse ++ rest, K d := by
      intro d hd
      rcases List.mem_append.mp hd with hd | hd
      · exact hK.children hroot (List.mem_reverse.mp hd)
      · exact hs d (List.mem_cons_of_mem _ hd)
    obtain ⟨hdone, hrest⟩ := ih hstack (hK.closed_insert hroot hc)
    -- taking the node first or counting it as seen makes no difference
    have hiff (i : Nat) (ids : List Nat) :
        (i ∈ seen.insert c.id ∨ i ∈ ids) ↔ i ∈ seen ∨ i ∈ c.id :: ids := by
      rw [Std.HashSet.mem_insert, List.mem_cons, beq_iff_eq, eq_comm]
      tauto
    simp only [hiff] at hdone hrest
    refine ⟨hdone, fun d hd => ?_⟩
    rcases List.mem_cons.mp hd with rfl | hd
    · exact .inr List.mem_cons_self
    · exact hrest d (List.mem_append_right _ hd)

theorem Numbered.mem_nodesFromStack (hc : Numbered (Part c)) :
    d ∈ c.nodesFromStack ↔ Part c d := by
  constructor
  · intro h
    obtain ⟨e, he, hp⟩ := part_of_mem_walk [c] {} h
    cases List.mem_singleton.mp he
    exact hp
  · intro hp
    obtain ⟨hclosed, hroot⟩ := hc.walk_closed [c] {}
      (fun d hd => List.mem_singleton.mp hd ▸ .refl) fun _ _ hm => by simp at hm
    have hmem : d.id ∈ (walk [c] {}).map Constr.id := by
      induction hp with
      | refl => simpa using hroot c List.mem_cons_self
      | tail hp he ih => simpa using hclosed _ hp (.inr ih) _ he
    obtain ⟨e, he, hid⟩ := List.mem_map.mp hmem
    obtain ⟨f, hf, hpe⟩ := part_of_mem_walk [c] {} he
    cases List.mem_singleton.mp hf
    cases hc.inj hpe hp hid
    exact he

end Walking

end Precond.Constr
