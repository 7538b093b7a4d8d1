import Precond.Proofs.Constraint.Spare
import Precond.Proofs.Constraint.Traversal
import Precond.Proofs.Flow.Loops

/-! The text and the statistics of a constraint. The text shows each node in full once, in the order in
which the nodes come first in the tree as it is read from top to bottom (`Constr.exists_shown`). A node
that comes again is finished: only the nodes above it, which are larger, are not, so that nothing below
it is left to print (`Numbered.listed`). The statistics count the nodes of the text
(`Constr.text_covers`). -/

namespace Precond

/-! ### First occurrences -/

section FirstOccurrences

variable {α : Type} [DecidableEq α] {as bs cs : List α}

theorem eraseDups_eq_self (h : as.Nodup) : as.eraseDups = as := by
  induction as with
  | nil => rfl
  | cons a as ih =>
    have ha := (List.nodup_cons.mp h).1
    rw [List.eraseDups_cons, List.filter_eq_self.mpr, ih (List.nodup_cons.mp h).2]
    intro b hb
    simp only [Bool.not_eq_true', beq_eq_false_iff_ne]
    exact fun he => ha (he ▸ hb)

theorem removeAll_congr (h : ∀ a, a ∈ as ↔ a ∈ bs) : cs.removeAll as = cs.removeAll bs := by
  simp only [List.removeAll]
  congr 1
  funext a
  simp [h]

/-- What comes again behind a list can be left out. -/
theorem eraseDups_append_of_subset (h : bs ⊆ as) (cs : List α) :
    (as ++ (bs ++ cs)).eraseDups = (as ++ cs).eraseDups := by
  have hbs : bs.removeAll as = [] := by
    simp only [List.removeAll, List.filter_eq_nil_iff]
    intro b hb
    simpa using h hb
  have happend : (as ++ bs).eraseDups = as.eraseDups := by
    rw [List.eraseDups_append, hbs, List.eraseDups_nil, List.append_nil]
  have hremove : cs.removeAll (as ++ bs) = cs.removeAll as :=
    removeAll_congr (by simpa using fun a ha => h ha)
  rw [← List.append_assoc, List.eraseDups_append, happend, hremove, ← List.eraseDups_append]

theorem eraseDups_append_left : (as.eraseDups ++ cs).eraseDups = (as ++ cs).eraseDups := by
  rw [List.eraseDups_append, List.eraseDups_append, eraseDups_eq_self (nodup_eraseDups as),
    removeAll_congr fun a => List.mem_eraseDups]

end FirstOccurrences

namespace Constr

variable {K : Constr → Prop} {c d e : Constr} {depth : Nat}

/-! ### The order of nodes -/

mutual

/-- A constraint as a tree, read from top to bottom: a node comes before its parts, the hypotheses
before the goals and the taken branch before the other. -/
def preorder : Constr → List Constr
  | goal id name value tid => [goal id name value tid]
  | clause id hyps goals => clause id hyps goals :: (preorders hyps ++ preorders goals)
  | branch id jump cond yes no => branch id jump cond yes no :: (preorder yes ++ preorder no)
  | subst id body pairs => subst id body pairs :: preorder body

def preorders : List Constr → List Constr
  | [] => []
  | c :: cs => preorder c ++ preorders cs

end

theorem preorders_append (cs ds : List Constr) :
    preorders (cs ++ ds) = preorders cs ++ preorders ds := by
  induction cs with
  | nil => rfl
  | cons c cs ih => simp [preorders, ih]

theorem preorder_eq (c : Constr) : c.preorder = c :: preorders c.children := by
  cases c <;> simp [preorder, preorders, preorders_append, children]

theorem mem_preorders {cs : List Constr} : d ∈ preorders cs ↔ ∃ c ∈ cs, d ∈ c.preorder := by
  induction cs with
  | nil => simp [preorders]
  | cons c cs ih => simp [preorders, ih]

theorem mem_preorder (c : Constr) : d ∈ c.preorder ↔ Part c d := by
  rw [preorder_eq, List.mem_cons, mem_preorders, part_iff, eq_comm (a := d)]
  refine or_congr_right (exists_congr fun e => and_congr_right fun he => ?_)
  have := extent_lt he
  exact mem_preorder e
termination_by extent c

/-- The node that a line prints in full, with its label. -/
def Line.full? : Line → Option (Constr × Nat)
  | full _ label node => some (node, label)
  | _ => none

/-- The node that a line prints in full or refers to. -/
def Line.node? : Line → Option Constr
  | title .. => none
  | full _ _ node | reference _ _ node => some node

def Item.node? : Item → Option Constr
  | title .. => none
  | node _ c => some c

theorem filterMap_content (depth : Nat) (c : Constr) :
    (content depth c).filterMap Item.node? = c.children := by
  have hmap (cs : List Constr) : (cs.map (Item.node (depth + 1))).filterMap Item.node? = cs := by
    simp [List.filterMap_map, Function.comp_def, Item.node?]
  cases c with
  | clause id hyps goals =>
    rw [content, List.filterMap_append, List.filterMap_cons_none rfl, hmap]
    cases hyps with
    | nil => rfl
    | cons h hyps =>
      exact congrArg (· ++ goals) (hmap (h :: hyps))
  | _ => rfl

/-! ### Printing -/

/-- The labels are the places of the printed nodes. -/
structure Labelled (K : Constr → Prop) (shown : List Constr) (labels : Std.HashMap Nat Nat) :
    Prop where
  known : ∀ d ∈ shown, K d
  nodup : (shown.map Constr.id).Nodup
  size : labels.size = shown.length
  label : labels[i]? = some n ↔ ∃ d, (d, n) ∈ shown.zipIdx ∧ d.id = i

/-- Of the nodes up to a size, those that have been printed have been printed with all below them. -/
def Complete (shown : List Constr) (size : Nat) : Prop :=
  ∀ d ∈ shown, extent d ≤ size → ∀ e, Part d e → e ∈ shown

/-- Printing some items adds printed nodes and lines. -/
structure Listed (K : Constr → Prop) (shown : List Constr) (labels : Std.HashMap Nat Nat)
    (items : List Item) (new : List Constr) (labels' : Std.HashMap Nat Nat) (ls : List Line) :
    Prop where
  labelled : Labelled K (shown ++ new) labels'
  full : ls.filterMap Line.full? = new.zipIdx shown.length
  reference : ∀ {before depth n d after}, ls = before ++ .reference depth n d :: after →
    (d, n) ∈ shown.zipIdx ++ before.filterMap Line.full?
  nodes : (ls.filterMap Line.node?).Perm (items.filterMap Item.node? ++ new.flatMap children)
  order : (shown ++ new).map Constr.id =
    ((shown ++ preorders (items.filterMap Item.node?)).map Constr.id).eraseDups
  list (rest : List Item) : list (items ++ rest) labels = ls ++ list rest labels'

section Printing

variable {shown new new₁ new₂ : List Constr} {labels labels₁ labels₂ : Std.HashMap Nat Nat}
  {is js items : List Item} {ls ls₁ ls₂ : List Line} {n size : Nat}

theorem Labelled.empty : Labelled K [] {} where
  known := nofun
  nodup := List.nodup_nil
  size := rfl
  label := by simp

theorem Labelled.mem_iff (h : Labelled K shown labels) {i : Nat} :
    i ∈ labels ↔ i ∈ shown.map Constr.id := by
  rw [Std.HashMap.mem_iff_isSome_getElem?, Option.isSome_iff_exists]
  simp only [h.label, List.mem_map]
  constructor
  · rintro ⟨n, d, hd, rfl⟩
    exact ⟨d, List.fst_mem_of_mem_zipIdx hd, rfl⟩
  · rintro ⟨d, hd, rfl⟩
    obtain ⟨n, hn⟩ := List.getElem?_of_mem hd
    exact ⟨n, d, List.mem_zipIdx_iff_getElem?.mpr hn, rfl⟩

theorem Labelled.push (h : Labelled K shown labels) (hc : K c) (hl : labels[c.id]? = none) :
    Labelled K (shown ++ [c]) (labels.insert c.id labels.size) := by
  have hmem : c.id ∉ labels := by
    simpa using hl
  refine ⟨fun d hd => ?_, ?_, ?_, ?_⟩
  · rcases List.mem_append.mp hd with hd | hd
    · exact h.known d hd
    · exact List.mem_singleton.mp hd ▸ hc
  · rw [List.map_append, List.nodup_append]
    refine ⟨h.nodup, List.nodup_singleton _, fun i hi j hj => ?_⟩
    rintro rfl
    exact hmem (h.mem_iff.mpr (List.mem_singleton.mp hj ▸ hi))
  · rw [Std.HashMap.size_insert, if_neg hmem, h.size, List.length_append, List.length_singleton]
  · intro i n
    rw [Std.HashMap.getElem?_insert, List.zipIdx_append]
    split
    · rename_i hi
      cases eq_of_beq hi
      have hnot : ¬∃ d, (d, n) ∈ shown.zipIdx ∧ d.id = c.id := by
        rw [← h.label, hl]
        exact nofun
      simp [or_and_right, exists_or, hnot, h.size, eq_comm (a := shown.length)]
    · rename_i hi
      have hi : c.id ≠ i := fun he => hi (beq_iff_eq.mpr he)
      simp [or_and_right, exists_or, h.label, hi]

theorem Complete.mono (h : Complete shown n) (hle : size ≤ n) : Complete shown size :=
  fun d hd hs => h d hd (hs.trans hle)

theorem Listed.nil (h : Labelled K shown labels) : Listed K shown labels [] [] labels [] where
  labelled := by rwa [List.append_nil]
  full := rfl
  reference := by simp
  nodes := .nil
  order := by simpa [preorders] using (eraseDups_eq_self h.nodup).symm
  list := fun _ => rfl

theorem Listed.append (h₁ : Listed K shown labels is new₁ labels₁ ls₁)
    (h₂ : Listed K (shown ++ new₁) labels₁ js new₂ labels₂ ls₂) :
    Listed K shown labels (is ++ js) (new₁ ++ new₂) labels₂ (ls₁ ++ ls₂) where
  labelled := by
    rw [← List.append_assoc]
    exact h₂.labelled
  full := by
    rw [List.filterMap_append, h₁.full, h₂.full, List.zipIdx_append, List.length_append, Nat.add_comm]
  reference := by
    intro before depth n d after hls
    have hzip : (shown ++ new₁).zipIdx = shown.zipIdx ++ ls₁.filterMap Line.full? := by
      rw [List.zipIdx_append, Nat.zero_add, h₁.full]
    rcases List.append_eq_append_iff.mp hls with ⟨mid, rfl, hmid⟩ | ⟨mid, hbefore, hmid⟩
    · have hmem := h₂.reference hmid
      rwa [hzip, List.append_assoc, ← List.filterMap_append] at hmem
    · cases mid with
      | nil =>
        -- the line is the first one of the second part
        have hmem := @Listed.reference _ _ _ _ _ _ _ h₂ [] _ _ _ _ hmid.symm
        rw [List.append_nil] at hbefore
        rwa [hzip, hbefore, List.filterMap_nil, List.append_nil] at hmem
      | cons l mid =>
        cases hmid
        exact h₁.reference hbefore
  nodes := by
    rw [List.filterMap_append, List.filterMap_append, List.flatMap_append]
    refine (h₁.nodes.append h₂.nodes).trans ?_
    simp only [List.append_assoc]
    refine .append_left _ ?_
    rw [← List.append_assoc, ← List.append_assoc]
    exact .append_right _ List.perm_append_comm
  order := by
    rw [← List.append_assoc, h₂.order, List.map_append, h₁.order, eraseDups_append_left,
      ← List.map_append, List.filterMap_append, preorders_append, List.append_assoc]
  list := fun rest => by rw [List.append_assoc, h₁.list, h₂.list, List.append_assoc]

theorem Listed.title (h : Labelled K shown labels) (depth : Nat) (text : String) :
    Listed K shown labels [.title depth text] [] labels [.title depth text] where
  labelled := by rwa [List.append_nil]
  full := rfl
  reference := by simp [List.singleton_eq_append_iff]
  nodes := .nil
  order := (Listed.nil h).order
  list := fun _ => by rw [List.singleton_append, Constr.list, List.singleton_append]

/-- A node that comes again is finished. -/
theorem Listed.again (h : Labelled K shown labels) (hc : Complete shown (extent c))
    (hmem : (c, n) ∈ shown.zipIdx) :
    Listed K shown labels [.node depth c] [] labels [.reference depth n c] where
  labelled := by rwa [List.append_nil]
  full := rfl
  reference := by
    intro before depth' n' d after hls
    rcases List.singleton_eq_append_iff.mp hls with ⟨rfl, hls⟩ | ⟨rfl, hls⟩
    · cases hls
      exact List.mem_append_left _ hmem
    · cases hls
  nodes := by simp [Item.node?, Line.node?]
  order := by
    have hsub : c.preorder.map Constr.id ⊆ shown.map Constr.id := by
      refine List.map_subset _ fun d hd => ?_
      exact hc c (List.fst_mem_of_mem_zipIdx hmem) (Nat.le_refl _) d ((mem_preorder c).mp hd)
    have herase := eraseDups_append_of_subset hsub []
    rw [List.append_nil, List.append_nil, eraseDups_eq_self h.nodup] at herase
    simpa [preorders, Item.node?] using herase.symm
  list := fun rest => by
    have hl := h.label.mpr ⟨c, hmem, rfl⟩
    rw [List.singleton_append, Constr.list, hl, List.singleton_append]

/-- A new node is printed with what is below it. -/
theorem Listed.first (hs : labels.size = shown.length) (hl : labels[c.id]? = none)
    (h : Listed K (shown ++ [c]) (labels.insert c.id labels.size) (content depth c) new labels₁ ls) :
    Listed K shown labels [.node depth c] (c :: new) labels₁ (.full depth shown.length c :: ls) where
  labelled := by
    have := h.labelled
    rwa [List.append_assoc, List.singleton_append] at this
  full := by
    have hfull := h.full
    rw [List.length_append, List.length_singleton] at hfull
    exact congrArg ((c, shown.length) :: ·) hfull
  reference := by
    intro before depth' n d after hls
    cases before with
    | nil => cases hls
    | cons l before =>
      rw [List.cons_append, List.cons.injEq] at hls
      obtain ⟨rfl, hls⟩ := hls
      have hmem := h.reference hls
      rwa [List.zipIdx_append, Nat.zero_add, List.append_assoc] at hmem
  nodes := by
    have hnodes := h.nodes
    rw [filterMap_content] at hnodes
    exact hnodes.cons c
  order := by
    have horder := h.order
    rw [filterMap_content] at horder
    simpa [preorders, preorder_eq c, Item.node?] using horder
  list := fun rest => by
    rw [List.singleton_append, Constr.list, hl]
    simp only [hs, List.cons_append]
    rw [← hs, h.list]

/-- All below some items has been printed when the items have. -/
theorem Numbered.mem_of_listed (hK : Numbered K)
    (h : Listed K shown labels items new labels₁ ls)
    (hi : ∀ c ∈ items.filterMap Item.node?, K c) (hd : d ∈ items.filterMap Item.node?)
    (hp : Part d e) : e ∈ shown ++ new := by
  have hmem : e.id ∈ (shown ++ new).map Constr.id := by
    rw [h.order, List.mem_eraseDups]
    refine List.mem_map_of_mem (List.mem_append_right _ ?_)
    exact mem_preorders.mpr ⟨d, hd, (mem_preorder d).mpr hp⟩
  obtain ⟨f, hf, hid⟩ := List.mem_map.mp hmem
  cases hK.inj (h.labelled.known f hf) (hK.part (hi d hd) hp) hid
  exact hf

/-- What has been printed for some items is below them. -/
theorem Numbered.part_of_listed (hK : Numbered K)
    (h : Listed K shown labels items new labels₁ ls)
    (hi : ∀ c ∈ items.filterMap Item.node?, K c) (he : e ∈ shown ++ new) :
    e ∈ shown ∨ ∃ d ∈ items.filterMap Item.node?, Part d e := by
  have hmem := List.mem_map_of_mem (f := Constr.id) he
  rw [h.order, List.mem_eraseDups] at hmem
  obtain ⟨f, hf, hid⟩ := List.mem_map.mp hmem
  have hshown : ∀ f ∈ shown, K f := fun f hf => h.labelled.known f (List.mem_append_left _ hf)
  rcases List.mem_append.mp hf with hf | hf
  · cases hK.inj (hshown f hf) (h.labelled.known e he) hid
    exact .inl hf
  · obtain ⟨d, hd, hp⟩ := mem_preorders.mp hf
    have hp := (mem_preorder d).mp hp
    cases hK.inj (hK.part (hi d hd) hp) (h.labelled.known e he) hid
    exact .inr ⟨d, hd, hp⟩

theorem Numbered.complete_of_listed (hK : Numbered K)
    (h : Listed K shown labels items new labels₁ ls)
    (hi : ∀ c ∈ items.filterMap Item.node?, K c) (hc : Complete shown size) :
    Complete (shown ++ new) size := by
  intro e he hs f hp
  rcases hK.part_of_listed h hi he with he | ⟨d, hd, he⟩
  · exact List.mem_append_left _ (hc e he hs f hp)
  · exact hK.mem_of_listed h hi hd (he.trans hp)

/-- Items that can be printed one by one can be printed together. -/
theorem Numbered.listedAll (hK : Numbered K) (hi : ∀ c ∈ items.filterMap Item.node?, K c)
    (hs : Labelled K shown labels) (hc : Complete shown size)
    (h : ∀ i ∈ items, ∀ shown labels, Labelled K shown labels → Complete shown size →
      ∃ new labels' ls, Listed K shown labels [i] new labels' ls) :
    ∃ new labels' ls, Listed K shown labels items new labels' ls := by
  induction items generalizing shown labels with
  | nil => exact ⟨_, _, _, .nil hs⟩
  | cons i items ih =>
    obtain ⟨new, labels₁, ls₁, h₁⟩ := h i List.mem_cons_self shown labels hs hc
    rw [← List.singleton_append, List.filterMap_append] at hi
    have hc₁ := hK.complete_of_listed h₁ (fun c hc => hi c (List.mem_append_left _ hc)) hc
    obtain ⟨new₂, labels₂, ls₂, h₂⟩ := ih (fun c hc => hi c (List.mem_append_right _ hc))
      h₁.labelled hc₁ fun i hi => h i (List.mem_cons_of_mem _ hi)
    exact ⟨_, _, _, h₁.append h₂⟩

/-- A node can be printed where the nodes that are not larger have been printed with all below them. -/
theorem Numbered.listed (hK : Numbered K) (c : Constr) (hc : K c) (depth : Nat)
    (shown : List Constr) (labels : Std.HashMap Nat Nat) (hs : Labelled K shown labels)
    (hcomplete : Complete shown (extent c)) :
    ∃ new labels' ls, Listed K shown labels [.node depth c] new labels' ls := by
  cases hl : labels[c.id]? with
  | some n =>
    obtain ⟨d, hd, hid⟩ := hs.label.mp hl
    cases hK.inj (hs.known d (List.fst_mem_of_mem_zipIdx hd)) hc hid
    exact ⟨_, _, _, .again hs hcomplete hd⟩
  | none =>
    have hsize : extent c = extents c.children + 1 := extent_eq c
    have hchildren := filterMap_content depth c
    -- the node is not finished, but it is larger than all that is below it
    have hpush : Complete (shown ++ [c]) (extents c.children) := by
      intro d hd hsd e hp
      rcases List.mem_append.mp hd with hd | hd
      · exact List.mem_append_left _ (hcomplete d hd (by omega) e hp)
      · cases List.mem_singleton.mp hd
        omega
    have hknown : ∀ d ∈ (content depth c).filterMap Item.node?, K d := by
      rw [hchildren]
      exact fun d hd => hK.children hc hd
    obtain ⟨new, labels', ls, h⟩ := hK.listedAll hknown (hs.push hc hl) hpush
      fun i hi shown labels hs hcomplete => by
        cases i with
        | title depth text => exact ⟨_, _, _, .title hs depth text⟩
        | node depth d =>
          have hd : d ∈ c.children := hchildren ▸ List.mem_filterMap.mpr ⟨_, hi, rfl⟩
          have := extent_lt hd
          exact hK.listed d (hK.children hc hd) depth shown labels hs (hcomplete.mono (extent_le hd))
    exact ⟨_, _, _, .first hs.size hl h⟩
termination_by extent c

end Printing

/-! ### Statistics -/

inductive Kind
  | goal | clause | branch | subst
  deriving DecidableEq

def kind : Constr → Kind
  | goal .. => .goal
  | clause .. => .clause
  | branch .. => .branch
  | subst .. => .subst

namespace Stats

def count (s : Stats) : Kind → Nat
  | .goal => s.goals
  | .clause => s.clauses
  | .branch => s.branches
  | .subst => s.substs

def total (s : Stats) : Nat := s.goals + s.clauses + s.branches + s.substs

/-- Count one node more. -/
def add (s : Stats) : Constr → Stats
  | goal .. => { s with goals := s.goals + 1 }
  | clause .. => { s with clauses := s.clauses + 1 }
  | branch .. => { s with branches := s.branches + 1 }
  | subst .. => { s with substs := s.substs + 1 }

theorem total_add (s : Stats) (c : Constr) : (s.add c).total = s.total + 1 := by
  cases c <;> simp [add, total] <;> omega

theorem count_add (s : Stats) (c : Constr) (k : Kind) :
    (s.add c).count k = s.count k + if c.kind = k then 1 else 0 := by
  cases c <;> cases k <;> simp [add, count, kind]

theorem total_foldl (s : Stats) (cs : List Constr) :
    (cs.foldl add s).total = s.total + cs.length := by
  induction cs generalizing s with
  | nil => rfl
  | cons c cs ih =>
    rw [List.foldl_cons, ih, total_add, List.length_cons]
    omega

theorem count_foldl (s : Stats) (cs : List Constr) (k : Kind) :
    (cs.foldl add s).count k = s.count k + cs.countP (·.kind = k) := by
  induction cs generalizing s with
  | nil => rfl
  | cons c cs ih =>
    rw [List.foldl_cons, ih, count_add, List.countP_cons]
    simp only [decide_eq_true_eq]
    omega

end Stats

theorem stats_eq (c : Constr) : c.stats = c.nodes.foldl Stats.add ⟨0, 0, 0, 0⟩ := rfl

/-! ### Text and statistics -/

/-- The text of a constraint shows some nodes in full, and refers to them by their labels. -/
structure Shown (c : Constr) (printed : List Constr) : Prop where
  text : c.toText = "\n".intercalate (c.lines.map Line.toText)
  full : c.lines.filterMap Line.full? = printed.zipIdx
  order : printed.map Constr.id = (c.preorder.map Constr.id).eraseDups
  reference : ∀ {before depth n d after}, c.lines = before ++ .reference depth n d :: after →
    (d, n) ∈ before.filterMap Line.full?
  occurrences : (c.lines.filterMap Line.node?).Perm (c :: printed.flatMap children)

theorem exists_shown (hc : Numbered (Part c)) :
    ∃ printed, c.Shown printed ∧ printed.Nodup ∧ ∀ d, d ∈ printed ↔ Part c d := by
  have hroot : ∀ d ∈ [c], Part c d := fun d hd => List.mem_singleton.mp hd ▸ .refl
  obtain ⟨printed, labels, ls, h⟩ := hc.listed c .refl 0 [] {} .empty (by simp [Complete])
  have hls : c.lines = ls := by
    simpa [lines, Constr.list] using h.list []
  have hnodes : [Item.node 0 c].filterMap Item.node? = [c] := rfl
  refine ⟨printed, ⟨?_, ?_, ?_, ?_, ?_⟩, ?_, fun d => ⟨fun hd => ?_, fun hp => ?_⟩⟩
  · rw [← textFromStack_eq, textFromStack]
  · rw [hls]
    exact h.full
  · simpa [hnodes, preorders] using h.order
  · intro before depth n d after hlines
    simpa using h.reference (hls ▸ hlines)
  · rw [hls]
    exact h.nodes
  · exact .of_map _ h.labelled.nodup
  · rcases hc.part_of_listed h hroot hd with hd | ⟨e, he, hp⟩
    · cases hd
    · cases List.mem_singleton.mp he
      exact hp
  · exact hc.mem_of_listed h hroot List.mem_cons_self hp

/-- The text shows each node of a constraint in full once, and the statistics count just these
nodes. -/
theorem text_covers (hc : Numbered (Part c)) :
    ∃ printed, c.Shown printed ∧ printed.Nodup ∧ (∀ d, d ∈ printed ↔ Part c d) ∧
      c.nodesFromStack = c.nodes ∧ c.nodes.Perm printed ∧ c.stats.total = printed.length ∧
      ∀ k, c.stats.count k = printed.countP (·.kind = k) := by
  obtain ⟨printed, hshown, hnodup, hmem⟩ := exists_shown hc
  have hnodes := nodesFromStack_eq c
  have hperm : c.nodes.Perm printed := by
    refine (List.perm_ext_iff_of_nodup ?_ hnodup).mpr fun d => ?_
    · rw [← hnodes]
      exact .of_map _ (walk_nodup [c] {}).1
    · rw [← hnodes, hmem]
      exact hc.mem_nodesFromStack
  refine ⟨printed, hshown, hnodup, hmem, hnodes, hperm, ?_, fun k => ?_⟩
  · rw [stats_eq, Stats.total_foldl, hperm.length_eq]
    exact Nat.zero_add _
  · rw [stats_eq, Stats.count_foldl, hperm.countP_eq]
    cases k <;> exact Nat.zero_add _

/-- A hypothesis comes again below a substitution, and the substitution below another one. -/
theorem text_covers_overlapping :
    Numbered (Part overlapping) ∧ ∃ printed, overlapping.Shown printed ∧
      printed.map Constr.id = [3, 0, 1, 2] ∧ overlapping.nodes.Perm printed ∧
      overlapping.stats.total = 4 := by
  obtain ⟨printed, hshown, -, -, -, hperm, htotal, -⟩ := text_covers overlapping_numbered
  have hids : printed.map Constr.id = [3, 0, 1, 2] := hshown.order.trans (by decide)
  have hlength : printed.length = 4 := by
    rw [← List.length_map Constr.id, hids]
    rfl
  exact ⟨overlapping_numbered, printed, hshown, hids, hperm, htotal.trans hlength⟩

end Constr

end Precond
