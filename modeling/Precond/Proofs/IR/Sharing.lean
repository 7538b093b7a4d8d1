import Mathlib.Data.List.Forall2
import Precond.Proofs.IR.Lets

/-! Expressions as objects. An object has an operator and the addresses of its operands, so that two
places of an operator, or two operators, can have the same object as an operand. The elimination of
local bindings goes over the operands of an object, and puts what becomes of an operand at every place
where that object is, whichever place it has come from. It ends at each object, with an object that is
the expression without its bindings (`Heap.inlines_exact`): an operand that is replaced has bindings
and what replaces it has none, so that no later operand is taken for an earlier replacement. -/

namespace Precond.IR

/-- Objects, the newest first. The address of an object is the number of those that are older. -/
abbrev Heap := List (Shape Nat)

namespace Heap

/-- The operator of the object at an address, with the addresses of its operands. -/
def cell? : Heap → Nat → Option (Shape Nat)
  | [], _ => none
  | c :: h, a => if a = h.length then some c else cell? h a

/-- The expression that the object at an address is. -/
def read : Heap → Nat → Exp
  | [], _ => default
  | c :: h, a => if a = h.length then (c.map (read h)).toExp else read h a

/-- Operands are older than what they are operands of. -/
def Sound : Heap → Prop
  | [] => True
  | c :: h => (∀ p ∈ c.parts, p < h.length) ∧ Sound h

/-- Where the variable is replaced by the object at `x`, the objects become others in turn. All but
variables and literals are made anew. -/
inductive Replaces (v : Var) (x : Nat) : Heap → List Nat → Heap → List Nat → Prop
  | nil : Replaces v x h [] h []
  | here : cell? h a = some (.var v) → Replaces v x h as h' bs →
      Replaces v x h (a :: as) h' (x :: bs)
  | leaf : cell? h a = some c → c.parts = [] → c ≠ .var v → Replaces v x h as h' bs →
      Replaces v x h (a :: as) h' (a :: bs)
  | bound : cell? h a = some (.letIn v y b) → Replaces v x h [y] h₁ [y'] →
      Replaces v x (.letIn v y' b :: h₁) as h₂ bs → Replaces v x h (a :: as) h₂ (h₁.length :: bs)
  | node : cell? h a = some c → c.parts ≠ [] → (∀ y b, c ≠ .letIn v y b) →
      Replaces v x h c.parts h₁ ps → Replaces v x (c.refill ps :: h₁) as h₂ bs →
      Replaces v x h (a :: as) h₂ (h₁.length :: bs)

/-- What is to be done: to look at an object, or to go over further operands of an object, which is
the one at `r` by then. -/
inductive Task
  | object (a : Nat)
  | operands (ks : List Nat) (r : Nat)

/-- The elimination of bindings, and the object that it ends with. An object with an operand that
becomes another one is made anew, with the other one in all places where that operand is. -/
inductive Inlines : Heap → Task → Heap → Nat → Prop
  | letIn : cell? h a = some (.letIn v y b) → Inlines h (.object y) h₁ y' →
      Replaces v y' h₁ [b] h₂ [b'] → Inlines h₂ (.object b') h₃ a' → Inlines h (.object a) h₃ a'
  | node : cell? h a = some c → c.kind ≠ .letIn → Inlines h (.operands c.parts a) h' a' →
      Inlines h (.object a) h' a'
  | done : Inlines h (.operands [] r) h r
  | kept : Inlines h (.object k) h₁ k → Inlines h₁ (.operands ks r) h₂ r' →
      Inlines h (.operands (k :: ks) r) h₂ r'
  | replaced : Inlines h (.object k) h₁ k' → k' ≠ k → cell? h₁ r = some c →
      Inlines (c.map (fun p => if p = k then k' else p) :: h₁) (.operands ks h₁.length) h₂ r' →
      Inlines h (.operands (k :: ks) r) h₂ r'

variable {h h' h₁ h₂ : Heap} {a a' b p x : Nat} {c : Shape Nat} {e : Exp} {v : Var}

theorem cell?_suffix (hs : h <:+ h') (ha : a < h.length) : cell? h' a = cell? h a := by
  obtain ⟨new, rfl⟩ := hs
  induction new with
  | nil => rfl
  | cons c new ih =>
    rw [List.cons_append, cell?, if_neg, ih]
    rw [List.length_append]
    omega

theorem read_suffix (hs : h <:+ h') (ha : a < h.length) : read h' a = read h a := by
  obtain ⟨new, rfl⟩ := hs
  induction new with
  | nil => rfl
  | cons c new ih =>
    rw [List.cons_append, read, if_neg, ih]
    rw [List.length_append]
    omega

theorem exists_cell (ha : a < h.length) : ∃ c, cell? h a = some c := by
  induction h with
  | nil => cases ha
  | cons c h ih =>
    rw [cell?]
    split
    · exact ⟨c, rfl⟩
    · exact ih (by rw [List.length_cons] at ha; omega)

theorem lt_of_cell (hc : cell? h a = some c) : a < h.length := by
  induction h with
  | nil => cases hc
  | cons c' h ih =>
    rw [cell?] at hc
    rw [List.length_cons]
    split at hc
    · omega
    · exact Nat.lt_succ_of_lt (ih hc)

theorem Sound.parts_lt (hs : Sound h) (hc : cell? h a = some c) : ∀ p ∈ c.parts, p < a := by
  induction h with
  | nil => cases hc
  | cons c' h ih =>
    rw [cell?] at hc
    split at hc
    next ha =>
      cases hc
      exact ha ▸ hs.1
    · exact ih hs.2 hc

theorem Sound.read_cell (hs : Sound h) (hc : cell? h a = some c) :
    read h a = (c.map (read h)).toExp := by
  induction h with
  | nil => cases hc
  | cons c' h ih =>
    have hparts := hs.parts_lt hc
    rw [cell?] at hc
    have hbelow (ha : a ≤ h.length) : c.map (read (c' :: h)) = c.map (read h) :=
      Shape.map_congr fun p hp => by rw [read, if_neg (by have := hparts p hp; omega)]
    split at hc
    next ha =>
      cases hc
      rw [hbelow (Nat.le_of_eq ha), read, if_pos ha]
    next ha =>
      rw [hbelow (Nat.le_of_lt (lt_of_cell hc)), read, if_neg ha]
      exact ih hs.2 hc

theorem Sound.children_cell (hs : Sound h) (hc : cell? h a = some c) :
    (read h a).children = c.parts.map (read h) := by
  rw [hs.read_cell hc, ← Exp.parts_shape, Exp.shape_toExp, Shape.parts_map]

/-- There are further objects, and those that were there are as before. -/
structure Grows (h h' : Heap) : Prop where
  sound : Sound h'
  older : h <:+ h'

/-- The object at the address is the expression. -/
structure Is (h : Heap) (a : Nat) (e : Exp) : Prop where
  inside : a < h.length
  read : read h a = e

theorem Sound.refl (hs : Sound h) : Grows h h := ⟨hs, List.suffix_rfl⟩

theorem Grows.trans (h₁₂ : Grows h h₁) (h₂₃ : Grows h₁ h₂) : Grows h h₂ :=
  ⟨h₂₃.sound, h₁₂.older.trans h₂₃.older⟩

theorem Grows.lt (hg : Grows h h') (ha : a < h.length) : a < h'.length :=
  Nat.lt_of_lt_of_le ha hg.older.length_le

theorem Is.later (ha : Is h a e) (hg : Grows h h') : Is h' a e :=
  ⟨hg.lt ha.inside, (read_suffix hg.older ha.inside).trans ha.read⟩

theorem Grows.cell (hg : Grows h h') (hc : cell? h a = some c) : cell? h' a = some c :=
  (cell?_suffix hg.older (lt_of_cell hc)).trans hc

/-- A new object. -/
theorem Sound.push (hs : Sound h) (hc : ∀ p ∈ c.parts, p < h.length) :
    Grows h (c :: h) ∧ cell? (c :: h) h.length = some c ∧
      Is (c :: h) h.length (c.map (Heap.read h)).toExp :=
  ⟨⟨⟨hc, hs⟩, List.suffix_cons ..⟩, if_pos rfl, Nat.lt_succ_self _, if_pos rfl⟩

/-- Every expression can be made, with one object for operands that are equal. -/
theorem Sound.makes (hs : Sound h) (e : Exp) : ∃ h' a, Grows h h' ∧ Is h' a e := by
  induction e using Exp.induct_children generalizing h with
  | h e ih =>
    have hparts (cs : List Exp) (hcs : ∀ c ∈ cs, c ∈ e.children) :
        ∃ (h' : Heap) (σ : Exp → Nat), Grows h h' ∧ ∀ c ∈ cs, Is h' (σ c) c := by
      induction cs with
      | nil => exact ⟨h, fun _ => 0, hs.refl, nofun⟩
      | cons c cs ihcs =>
        rw [List.forall_mem_cons] at hcs
        obtain ⟨h₁, σ, hg, hσ⟩ := ihcs hcs.2
        obtain ⟨h₂, a, hg₂, ha⟩ := ih c hcs.1 hg.sound
        refine ⟨h₂, fun d => if d = c then a else σ d, hg.trans hg₂,
          List.forall_mem_cons.mpr ⟨by simpa using ha, fun d hd => ?_⟩⟩
        by_cases hdc : d = c
        · simpa [hdc] using ha
        · simpa [hdc] using (hσ d hd).later hg₂
    obtain ⟨h', σ, hg, hσ⟩ := hparts _ fun _ => id
    obtain ⟨hg', -, hnew⟩ := hg.sound.push (c := e.shape.map σ) <| by
      rw [Shape.parts_map, Exp.parts_shape]
      exact List.forall_mem_map.mpr fun c hc => (hσ c hc).inside
    refine ⟨_, _, hg.trans hg', hnew.inside, hnew.read.trans ?_⟩
    rw [Shape.map_map, Shape.map_eq_self, Exp.toExp_shape]
    intro c hc
    exact (hσ c (Exp.parts_shape e ▸ hc)).read

/-! ### Replacing a variable -/

/-- There is one way only. -/
theorem Replaces.unique {as bs₁ bs₂ : List Nat} (r₁ : Replaces v x h as h₁ bs₁)
    (r₂ : Replaces v x h as h₂ bs₂) : h₁ = h₂ ∧ bs₁ = bs₂ := by
  induction r₁ generalizing h₂ bs₂ with
  | nil =>
    cases r₂
    exact ⟨rfl, rfl⟩
  | here hc _ ih =>
    cases r₂ with
    | here _ hr =>
      obtain ⟨rfl, rfl⟩ := ih hr
      exact ⟨rfl, rfl⟩
    | leaf hc' _ hne => exact absurd (Option.some.inj (hc'.symm.trans hc)) hne
    | bound hc' => cases hc.symm.trans hc'
    | node hc' hne => exact absurd (by cases hc.symm.trans hc'; rfl) hne
  | leaf hc hparts hne _ ih =>
    cases r₂ with
    | here hc' => exact absurd (Option.some.inj (hc.symm.trans hc')) hne
    | leaf _ _ _ hr =>
      obtain ⟨rfl, rfl⟩ := ih hr
      exact ⟨rfl, rfl⟩
    | bound hc' => cases hc.symm.trans hc'; cases hparts
    | node hc' hne' => cases hc.symm.trans hc'; exact absurd hparts hne'
  | bound hc _ _ ihy ih =>
    cases r₂ with
    | here hc' => cases hc.symm.trans hc'
    | leaf hc' hparts => cases hc.symm.trans hc'; cases hparts
    | bound hc' hy hr =>
      cases hc.symm.trans hc'
      obtain ⟨rfl, hy'⟩ := ihy hy
      cases hy'
      obtain ⟨rfl, rfl⟩ := ih hr
      exact ⟨rfl, rfl⟩
    | node hc' _ hne => exact absurd (Option.some.inj (hc'.symm.trans hc)) (hne _ _)
  | node hc hparts hne _ _ ihps ih =>
    cases r₂ with
    | here hc' => cases hc.symm.trans hc'; exact absurd rfl hparts
    | leaf hc' hparts' => cases hc.symm.trans hc'; exact absurd hparts' hparts
    | bound hc' => exact absurd (Option.some.inj (hc.symm.trans hc')) (hne _ _)
    | node hc' _ _ hps hr =>
      cases hc.symm.trans hc'
      obtain ⟨rfl, rfl⟩ := ihps hps
      obtain ⟨rfl, rfl⟩ := ih hr
      exact ⟨rfl, rfl⟩

/-- The replacement of a variable ends at these objects of a heap, with others that are the expressions
after the replacement. -/
def Ends (h : Heap) (v : Var) (x : Nat) (f : Exp) (as : List Nat) : Prop :=
  ∃ h' bs, Replaces v x h as h' bs ∧ Grows h h' ∧ (∀ b ∈ bs, b < h'.length) ∧
    bs.map (read h') = as.map fun a => (read h a).replaceVar v f

/-- The replacement of a variable ends at these objects wherever they are. -/
def Replaceable (v : Var) (x : Nat) (f : Exp) (as : List Nat) : Prop :=
  ∀ ⦃h⦄, Sound h → Is h x f → (∀ a ∈ as, a < h.length) → Ends h v x f as

/-- One object is dealt with before the others. -/
theorem Replaceable.go_on {f : Exp} {as : List Nat} (has : Replaceable v x f as) (hx : Is h x f)
    (hlt : ∀ a ∈ as, a < h.length) (hg : Grows h h₁) (ha : Is h₁ a' ((read h a).replaceVar v f))
    (hr : ∀ {h₂ bs}, Replaces v x h₁ as h₂ bs → Replaces v x h (a :: as) h₂ (a' :: bs)) :
    Ends h v x f (a :: as) := by
  obtain ⟨h₂, bs, hrs, hg₂, hlt₂, hread⟩ := has hg.sound (hx.later hg) fun b hb => hg.lt (hlt b hb)
  refine ⟨h₂, a' :: bs, hr hrs, hg.trans hg₂,
    List.forall_mem_cons.mpr ⟨hg₂.lt ha.inside, hlt₂⟩, ?_⟩
  rw [List.map_cons, List.map_cons, (ha.later hg₂).read, hread]
  exact congrArg _ (List.map_congr_left fun b hb => by rw [read_suffix hg.older (hlt b hb)])

/-- Only the value of a binding of the variable is dealt with. -/
theorem Ends.bound {f : Exp} {as : List Nat} {y b : Nat} (hs : Sound h) (hx : Is h x f)
    (hc : cell? h a = some (.letIn v y b)) (hlt : ∀ a ∈ as, a < h.length) (hy : Replaceable v x f [y])
    (has : Replaceable v x f as) : Ends h v x f (a :: as) := by
  have hbelow : ∀ p ∈ [y, b], p < h.length := fun p hp =>
    Nat.lt_trans (hs.parts_lt hc p hp) (lt_of_cell hc)
  rw [List.forall_mem_cons, List.forall_mem_singleton] at hbelow
  obtain ⟨h₁, ys, hr, hg, hlty, hy⟩ := hy hs hx (List.forall_mem_singleton.mpr hbelow.1)
  obtain ⟨y', rfl⟩ : ∃ y', ys = [y'] := List.length_eq_one_iff.mp (by simpa using congrArg List.length hy)
  obtain ⟨hg', -, hnew⟩ := hg.sound.push (c := .letIn v y' b)
    (List.forall_mem_cons.mpr ⟨hlty y' List.mem_cons_self,
      List.forall_mem_singleton.mpr (hg.lt hbelow.2)⟩)
  refine has.go_on hx hlt (hg.trans hg') ⟨hnew.inside, hnew.read.trans ?_⟩ (Replaces.bound hc hr)
  have hy' : read h₁ y' = (read h y).replaceVar v f := by simpa using hy
  rw [hs.read_cell hc, Shape.map, Shape.toExp, Shape.map, Shape.toExp, hy', Exp.replaceVar, if_pos rfl,
    read_suffix hg.older hbelow.2]

/-- All operands of other objects are dealt with. -/
theorem Ends.node {f : Exp} {as : List Nat} {c : Shape Nat} (hs : Sound h) (hx : Is h x f)
    (hc : cell? h a = some c) (hsome : c.parts ≠ []) (hnot : ∀ y b, c ≠ .letIn v y b)
    (hlt : ∀ a ∈ as, a < h.length) (hparts : Replaceable v x f c.parts) (has : Replaceable v x f as) :
    Ends h v x f (a :: as) := by
  obtain ⟨h₁, ps, hr, hg, hltp, hps⟩ := hparts hs hx fun p hp =>
    Nat.lt_trans (hs.parts_lt hc p hp) (lt_of_cell hc)
  have hlength : ps.length = c.parts.length := by simpa using congrArg List.length hps
  obtain ⟨hg', -, hnew⟩ := hg.sound.push (c := c.refill ps) (by rwa [Shape.parts_refill hlength])
  refine has.go_on hx hlt (hg.trans hg') ⟨hnew.inside, hnew.read.trans ?_⟩
    (Replaces.node hc hsome hnot hr)
  refine Exp.shape_injective ?_
  rw [Exp.shape_toExp, Shape.map_refill hps, hs.read_cell hc, Exp.replaceVar_shape f, Exp.shape_toExp,
    Shape.map_map]
  · rfl
  · rw [Shape.kind_toExp, Shape.kind_map]
    intro hk
    cases c <;> cases hk
    exact absurd rfl hsome
  · intro y b hy
    cases c <;> cases hy
    exact hnot _ _ rfl

theorem Replaceable.cons {f : Exp} {as : List Nat}
    (hparts : ∀ ps : List Nat, (∀ p ∈ ps, p < a) → Replaceable v x f ps)
    (has : Replaceable v x f as) : Replaceable v x f (a :: as) := by
  intro h hs hx hlt
  rw [List.forall_mem_cons] at hlt
  obtain ⟨ha, hlt⟩ := hlt
  obtain ⟨c, hc⟩ := exists_cell ha
  have hread : read h a = (c.map (read h)).toExp := hs.read_cell hc
  by_cases hvar : c = .var v
  · subst hvar
    refine has.go_on hx hlt hs.refl ?_ (Replaces.here hc)
    rw [hread, Shape.map, Shape.toExp, Exp.replaceVar, if_pos rfl]
    exact hx
  by_cases hleaf : c.parts = []
  · refine has.go_on hx hlt hs.refl ⟨ha, ?_⟩ (Replaces.leaf hc hleaf hvar)
    rw [hread]
    cases c with
    | var u => exact (if_neg fun hu => hvar (by rw [hu])).symm
    | lit | unknown => rfl
    | _ => cases hleaf
  by_cases hbound : ∃ y b, c = .letIn v y b
  · obtain ⟨y, b, rfl⟩ := hbound
    exact .bound hs hx hc hlt (hparts [y]
      (List.forall_mem_singleton.mpr (hs.parts_lt hc y List.mem_cons_self))) has
  · exact .node hs hx hc hleaf (fun y b h => hbound ⟨y, b, h⟩) hlt (hparts c.parts (hs.parts_lt hc)) has

/-- Operands are older, also after other operands have been made anew. -/
theorem replaceable (v : Var) (x : Nat) (f : Exp) (as : List Nat) : Replaceable v x f as := by
  suffices h : ∀ n, ∀ as : List Nat, (∀ a ∈ as, a < n) → Replaceable v x f as from
    fun _ hs hx hlt => h _ as hlt hs hx hlt
  intro n
  induction n using Nat.strongRecOn with
  | ind n ihn =>
    intro as has
    induction as with
    | nil => exact fun h hs _ _ => ⟨h, [], .nil, hs.refl, nofun, rfl⟩
    | cons a as ih =>
      rw [List.forall_mem_cons] at has
      exact .cons (ihn a has.1) (ih has.2)

/-! ### Eliminating bindings -/

/-- There is one way only. -/
theorem Inlines.unique {t : Task} {r₁ r₂ : Nat} (i₁ : Inlines h t h₁ r₁) (i₂ : Inlines h t h₂ r₂) :
    h₁ = h₂ ∧ r₁ = r₂ := by
  induction i₁ generalizing h₂ r₂ with
  | letIn hc _ hr _ ihy ihb =>
    cases i₂ with
    | letIn hc' hy' hr' hb' =>
      cases hc.symm.trans hc'
      obtain ⟨rfl, rfl⟩ := ihy hy'
      obtain ⟨rfl, hb⟩ := hr.unique hr'
      cases hb
      exact ihb hb'
    | node hc' hk => cases hc.symm.trans hc'; exact absurd rfl hk
  | node hc hk _ ih =>
    cases i₂ with
    | letIn hc' => cases hc.symm.trans hc'; exact absurd rfl hk
    | node hc' _ hi => cases hc.symm.trans hc'; exact ih hi
  | done =>
    cases i₂
    exact ⟨rfl, rfl⟩
  | kept _ _ ihk ih =>
    cases i₂ with
    | kept hk hr =>
      obtain ⟨rfl, -⟩ := ihk hk
      exact ih hr
    | replaced hk hne => exact absurd (ihk hk).2.symm hne
  | replaced _ hne hc _ ihk ih =>
    cases i₂ with
    | kept hk => exact absurd (ihk hk).2 hne
    | replaced hk _ hc' hr =>
      obtain ⟨rfl, rfl⟩ := ihk hk
      cases hc.symm.trans hc'
      exact ih hr

/-- The elimination ends at the object, with one that is the expression without its bindings. Nothing
is made where there are none. -/
def Inlinable (a : Nat) (h : Heap) : Prop :=
  ∃ h' a', Inlines h (.object a) h' a' ∧ Grows h h' ∧ Is h' a' (read h a).inlineLets ∧
    ((read h a).countLets = 0 → h' = h ∧ a' = a)

/-- An object on the way to another one. It is the object at `r` by now, each of its operands is the
one of the object `c` or has become another one, and those that have been gone over are without
bindings. -/
structure Halfway (h : Heap) (c : Shape Nat) (past : List Nat) (h' : Heap) (r : Nat) (σ : Nat → Nat) :
    Prop where
  grows : Grows h h'
  cell : cell? h' r = some (c.map σ)
  either : ∀ p ∈ c.parts, σ p = p ∨ Is h' (σ p) (read h p).inlineLets
  past : ∀ p ∈ past, Is h' (σ p) (read h p).inlineLets

namespace Halfway

variable {past ks : List Nat} {r k k' : Nat} {σ : Nat → Nat}

theorem start (hs : Sound h) (hc : cell? h a = some c) : Halfway h c [] h a id :=
  ⟨hs.refl, by rwa [Shape.map_id], fun _ _ => .inl rfl, nofun⟩

/-- An operand that is left as it is has no bindings, and neither has what it has become before. -/
theorem kept (H : Halfway h c past h₁ r σ) (hk : k ∈ c.parts) (hg : Grows h₁ h₂)
    (hr : Is h₂ k (read h k).inlineLets) : Halfway h c (k :: past) h₂ r σ where
  grows := H.grows.trans hg
  cell := hg.cell H.cell
  either p hp := (H.either p hp).imp_right (·.later hg)
  past := List.forall_mem_cons.mpr
    ⟨(H.either k hk).elim (fun he => he.symm ▸ hr) (·.later hg), fun p hp => (H.past p hp).later hg⟩

/-- What an operand has become has no bindings, so it is not an operand that is replaced. -/
theorem replaced (H : Halfway h c past h₁ r σ) (hk : k ∈ c.parts) (hg : Grows h₁ h₂)
    (hr : Is h₂ k' (read h k).inlineLets) (hlets : (read h₁ k).countLets ≠ 0) :
    let f p := if p = k then k' else p
    Halfway h c (k :: past) ((c.map σ).map f :: h₂) h₂.length (f ∘ σ) := by
  intro f
  have hcell := hg.cell H.cell
  obtain ⟨hpush, hnew, -⟩ := hg.sound.push (c := (c.map σ).map f) <| by
    rw [Shape.parts_map]
    refine List.forall_mem_map.mpr fun p hp => ?_
    show (if p = k then k' else p) < h₂.length
    split
    · exact hr.inside
    · exact Nat.lt_trans (hg.sound.parts_lt hcell p hp) (lt_of_cell hcell)
  have hk' : Is ((c.map σ).map f :: h₂) k' (read h k).inlineLets := hr.later hpush
  have hflat {p : Nat} (hp : Is h₁ (σ p) (read h p).inlineLets) :
      Is ((c.map σ).map f :: h₂) (f (σ p)) (read h p).inlineLets := by
    have hne : σ p ≠ k := fun he => hlets (by rw [← he, hp.read, Exp.countLets_inlineLets])
    show Is _ (if σ p = k then k' else σ p) _
    rw [if_neg hne]
    exact (hp.later hg).later hpush
  have hself (p : Nat) (hp : σ p = p) : f (σ p) = p ∨ p = k ∧ f (σ p) = k' := by
    show (if σ p = k then k' else σ p) = p ∨ p = k ∧ (if σ p = k then k' else σ p) = k'
    rw [hp]
    by_cases hpk : p = k
    · exact .inr ⟨hpk, if_pos hpk⟩
    · exact .inl (if_neg hpk)
  refine ⟨(H.grows.trans hg).trans hpush, by rw [hnew, Shape.map_map], fun p hp => ?_,
    List.forall_mem_cons.mpr ⟨?_, fun p hp => hflat (H.past p hp)⟩⟩
  · rcases H.either p hp with he | hi
    · refine (hself p he).imp_right fun ⟨hpk, hf⟩ => ?_
      rw [Function.comp_apply, hf, hpk]
      exact hk'
    · exact .inr (hflat hi)
  · rcases H.either k hk with he | hi
    · show Is _ (if σ k = k then k' else σ k) _
      rw [if_pos he]
      exact hk'
    · exact hflat hi

/-- The operands are gone over one after the other. -/
theorem finish (hks : ∀ k ∈ ks, k ∈ c.parts ∧ ∀ h', Grows h h' → Inlinable k h')
    (hs : Sound h) (hc : cell? h a = some c) (hall : ∀ p ∈ c.parts, p ∈ past ∨ p ∈ ks)
    (H : Halfway h c past h₁ r σ) :
    ∃ h' r', Inlines h₁ (.operands ks r) h' r' ∧ Grows h h' ∧
      Is h' r' (c.map fun p => (read h p).inlineLets).toExp ∧
      ((∀ k ∈ ks, (read h k).countLets = 0) → h' = h₁ ∧ r' = r) := by
  have hparts {k : Nat} (hk : k ∈ c.parts) : k < h.length :=
    Nat.lt_trans (hs.parts_lt hc k hk) (lt_of_cell hc)
  induction ks generalizing past h₁ r σ with
  | nil =>
    refine ⟨h₁, r, .done, H.grows, ⟨lt_of_cell H.cell, ?_⟩, fun _ => ⟨rfl, rfl⟩⟩
    rw [H.grows.sound.read_cell H.cell, Shape.map_map]
    refine congrArg _ (Shape.map_congr fun p hp => ?_)
    exact (H.past p ((hall p hp).resolve_right nofun)).read
  | cons k ks ih =>
    rw [List.forall_mem_cons] at hks
    obtain ⟨⟨hk, hin⟩, hks⟩ := hks
    have hread : read h₁ k = read h k := read_suffix H.grows.older (hparts hk)
    obtain ⟨h₂, k', hi, hg, hr, hsame⟩ := hin h₁ H.grows
    rw [hread] at hr hsame
    have hall' (p : Nat) (hp : p ∈ c.parts) : p ∈ k :: past ∨ p ∈ ks := by
      have := hall p hp
      rw [List.mem_cons] at this ⊢
      tauto
    by_cases hkk : k' = k
    · subst hkk
      obtain ⟨h', r', hi', hg', hr', hsame'⟩ := ih hks hall' (H.kept hk hg hr)
      refine ⟨h', r', .kept hi hi', hg', hr', fun hfree => ?_⟩
      rw [List.forall_mem_cons] at hfree
      obtain ⟨rfl, -⟩ := hsame hfree.1
      exact hsame' hfree.2
    · have hlets : (read h₁ k).countLets ≠ 0 := fun h0 => hkk (hsame (hread ▸ h0)).2
      obtain ⟨h', r', hi', hg', hr', -⟩ := ih hks hall' (H.replaced hk hg hr hlets)
      refine ⟨h', r', .replaced hi hkk (hg.cell H.cell) hi', hg', hr', fun hfree => ?_⟩
      exact absurd (hfree k List.mem_cons_self) (hread ▸ hlets)

end Halfway

/-- The value of a binding comes first, and then the body with the value in place. -/
theorem Inlinable.letIn {y b : Nat} (hs : Sound h) (hc : cell? h a = some (.letIn v y b))
    (hy : Inlinable y h) (hb : ∀ h' b', Sound h' → b' < h'.length →
      (read h' b').countLets = (read h b).countLets → Inlinable b' h') : Inlinable a h := by
  have hread : read h a = .letIn v (read h y) (read h b) := hs.read_cell hc
  have hbelow : b < h.length :=
    Nat.lt_trans (hs.parts_lt hc b (List.mem_cons_of_mem y List.mem_cons_self)) (lt_of_cell hc)
  obtain ⟨h₁, y', hiy, hgy, hy, -⟩ := hy
  obtain ⟨h₂, bs, hr, hgb, hlt, hbs⟩ := replaceable v y' _ [b] hgy.sound hy
    (List.forall_mem_singleton.mpr (hgy.lt hbelow))
  obtain ⟨b', rfl⟩ : ∃ b', bs = [b'] :=
    List.length_eq_one_iff.mp (by simpa using congrArg List.length hbs)
  have hb' : read h₂ b' = (read h b).replaceVar v (read h y).inlineLets := by
    simpa [read_suffix hgy.older hbelow] using hbs
  obtain ⟨h₃, a', hia, hga, hfinal, -⟩ := hb h₂ b' hgb.sound (hlt b' List.mem_cons_self)
    (by rw [hb', Exp.countLets_body])
  refine ⟨h₃, a', .letIn hc hiy hr hia, (hgy.trans hgb).trans hga, ?_, fun h0 => ?_⟩
  · rwa [hread, Exp.inlineLets_letIn, ← hb']
  · rw [hread] at h0
    cases h0

/-- The operands of other objects are gone over. -/
theorem Inlinable.node (hs : Sound h) (hc : cell? h a = some c) (hlet : c.kind ≠ .letIn)
    (hparts : ∀ k ∈ c.parts, ∀ h', Grows h h' → Inlinable k h') : Inlinable a h := by
  have hread : read h a = (c.map (read h)).toExp := hs.read_cell hc
  have hkind : (read h a).kind ≠ .letIn := by
    rw [hread, Shape.kind_toExp, Shape.kind_map]
    exact hlet
  obtain ⟨h', a', hi, hg, hfinal, hsame⟩ := Halfway.finish (fun k hk => ⟨hk, hparts k hk⟩) hs hc
    (fun p hp => .inr hp) (Halfway.start hs hc)
  have hinline : (read h a).inlineLets = (c.map fun p => (read h p).inlineLets).toExp := by
    refine Exp.shape_injective ?_
    rw [Exp.inlineLets_shape hkind, hread, Exp.shape_toExp, Shape.map_map, Exp.shape_toExp]
    rfl
  refine ⟨h', a', .node hc hlet hi, hg, hinline ▸ hfinal, fun h0 => hsame fun k hk => ?_⟩
  rw [Exp.countLets_eq_zero hkind, hs.children_cell hc] at h0
  exact h0 _ (List.mem_map_of_mem hk)

/-- The bindings come first, since the body with the value in place may be larger than the object; then
come the operands, which are older. -/
theorem inlinable (hs : Sound h) (ha : a < h.length) : Inlinable a h := by
  suffices H : ∀ n a h, Sound h → a < h.length → (read h a).countLets ≤ n → Inlinable a h from
    H _ a h hs ha (Nat.le_refl _)
  intro n
  induction n using Nat.strongRecOn with
  | ind n ihn =>
    intro a
    induction a using Nat.strongRecOn with
    | ind a iha =>
      intro h hs ha hn
      obtain ⟨c, hc⟩ := exists_cell ha
      have hbelow (p : Nat) (hp : p ∈ c.parts) : p < h.length :=
        Nat.lt_trans (hs.parts_lt hc p hp) ha
      by_cases hlet : c.kind = .letIn
      · obtain ⟨v, y, b, rfl⟩ : ∃ v y b, c = .letIn v y b := by
          cases c <;> cases hlet
          exact ⟨_, _, _, rfl⟩
        have hread : read h a = .letIn v (read h y) (read h b) := hs.read_cell hc
        rw [hread, Exp.countLets] at hn
        have hy := List.mem_cons_self (a := y) (l := [b])
        exact .letIn hs hc (iha y (hs.parts_lt hc y hy) h hs (hbelow y hy) (by omega))
          fun h' b' hs' hb' hcount => ihn _ (by omega) b' h' hs' hb' (Nat.le_of_eq hcount)
      · have hkind : (read h a).kind ≠ .letIn := by
          rw [hs.read_cell hc, Shape.kind_toExp, Shape.kind_map]
          exact hlet
        refine .node hs hc hlet fun k hk h' hg =>
          iha k (hs.parts_lt hc k hk) h' hg.sound (hg.lt (hbelow k hk)) ?_
        rw [read_suffix hg.older (hbelow k hk)]
        refine Nat.le_trans (Exp.countLets_part hkind ?_) hn
        exact hs.children_cell hc ▸ List.mem_map_of_mem hk

/-- Every expression can be made of objects, and whatever objects it is made of, the elimination ends at
its object, in one way, with an object that is the expression without its bindings. It leaves all
objects as they are; what has no bindings stays the same object. The expression without its bindings
has none; what is not a binding keeps its operator, with what becomes of each operand at the place of
that operand, also where the value of a variable is put into the body; and eliminating again changes
nothing. -/
theorem inlines_exact (e : Exp) :
    (∃ h a, Sound h ∧ Is h a e) ∧
    (∀ h a, Sound h → Is h a e → ∃ h' a', Inlines h (.object a) h' a' ∧
      (∀ h₂ a₂, Inlines h (.object a) h₂ a₂ → h₂ = h' ∧ a₂ = a') ∧
      h <:+ h' ∧ Is h' a' e.inlineLets ∧ (e.LetFree → h' = h ∧ a' = a)) ∧
    e.inlineLets.LetFree ∧
    (e.kind ≠ .letIn → e.inlineLets.shape = e.shape.map Exp.inlineLets) ∧
    (∀ v x b, e = .letIn v x b → e.inlineLets = (b.replaceVar v x.inlineLets).inlineLets) ∧
    (∀ v x, e.kind ≠ .var → (∀ y b, e ≠ .letIn v y b) →
      (e.replaceVar v x).shape = e.shape.map (·.replaceVar v x)) ∧
    e.inlineLets.inlineLets = e.inlineLets ∧ (e.LetFree → e.inlineLets = e) := by
  refine ⟨?_, fun h a hs ha => ?_, e.letFree_inlineLets, Exp.inlineLets_shape, ?_,
    fun v x => Exp.replaceVar_shape x, e.inlineLets_idem, fun hfree => ?_⟩
  · obtain ⟨h, a, hg, ha⟩ := Sound.makes (h := []) True.intro e
    exact ⟨h, a, hg.sound, ha⟩
  · obtain ⟨ha, rfl⟩ := ha
    obtain ⟨h', a', hi, hg, hr, hsame⟩ := inlinable hs ha
    exact ⟨h', a', hi, fun h₂ a₂ hi₂ => hi₂.unique hi, hg.older, hr,
      fun hfree => hsame ((Exp.letFree_iff _).mp hfree)⟩
  · rintro v x b rfl
    exact Exp.inlineLets_letIn v x b
  · exact Exp.inlineLets_of_letFree ((Exp.letFree_iff e).mp hfree)

/-! One object with a binding is both operands of a difference. -/

def doubled : Var := ⟨"t", .word 32⟩

def shared : Heap :=
  [.bin .sub 3 3, .letIn doubled 0 2, .bin .add 1 1, .var doubled, .var ⟨"R0", .word 32⟩]

theorem shared_sound : Sound shared := by
  simp [Sound, shared, Shape.parts]

theorem inlines_exact_shared :
    ∃ e h a, Sound shared ∧ Is shared 4 e ∧ Inlines shared (.object 4) h a ∧ Is h a e.inlineLets ∧
      e.inlineLets = .bin .sub (.bin .add (.var ⟨"R0", .word 32⟩) (.var ⟨"R0", .word 32⟩))
        (.bin .add (.var ⟨"R0", .word 32⟩) (.var ⟨"R0", .word 32⟩)) := by
  have hread : Is shared 4 (read shared 4) := ⟨by decide, rfl⟩
  obtain ⟨-, hobjects, -⟩ := inlines_exact (read shared 4)
  obtain ⟨h, a, hi, -, -, hr, -⟩ := hobjects shared 4 shared_sound hread
  exact ⟨_, h, a, shared_sound, hread, hi, hr, rfl⟩

end Heap

end Precond.IR
