import Mathlib.Data.List.Forall2
import Precond.Proofs.Env.Names
import Precond.Proofs.Run.Renaming
import Precond.Proofs.Term.Access

/-! Terms of renamed variables. Whether an operation on terms fails depends on the sorts of the terms only,
and so does the sort of its result: of two terms of one sort each, a cast or a read of memory fails for both
or for neither (`Term.castTo_level`, `Term.load_level`). A model sees what another one does if it gives the
renamed constants the same values, apart from those of renamed variables that do not count
(`IR.Renaming.Sees`). Terms are the same under a renaming if they have the same values in such models
(`IR.Renaming.Same`), and the operations on terms keep that. -/

namespace Precond

open IR Term

/-- Both operations fail, or their results are related. -/
inductive Tally (A : α → β → Prop) : Except Fault α → Except Fault β → Prop
  | ok : A a b → Tally A (.ok a) (.ok b)
  | error : Tally A (.error f) (.error f')

namespace Tally

variable {A : α → β → Prop} {B : γ → δ → Prop} {x : Except Fault α} {x' : Except Fault β}

theorem pure {a : α} {b : β} (h : A a b) : Tally A (Pure.pure a) (Pure.pure b) := .ok h

theorem throw (f f' : Fault) : Tally A (MonadExcept.throw f) (MonadExcept.throw f') := .error

theorem bind {k : α → Except Fault γ} {k' : β → Except Fault δ} (hx : Tally A x x')
    (hk : ∀ a b, A a b → Tally B (k a) (k' b)) : Tally B (x >>= k) (x' >>= k') := by
  cases hx with
  | ok h => exact hk _ _ h
  | error => exact .error

theorem mono {C : α → β → Prop} (h : Tally A x x') (hA : ∀ a b, x = .ok a → x' = .ok b → A a b → C a b) :
    Tally C x x' := by
  cases h with
  | ok h => exact .ok (hA _ _ rfl rfl h)
  | error => exact .error

theorem ite {p : Prop} [Decidable p] {y : Except Fault α} {y' : Except Fault β} (hx : p → Tally A x x')
    (hy : ¬ p → Tally A y y') : Tally A (if p then x else y) (if p then x' else y') := by
  split
  · exact hx ‹_›
  · exact hy ‹_›

theorem refl (x : Except Fault α) : Tally Eq x x := by
  cases x with
  | ok => exact .ok rfl
  | error => exact .error

theorem mapM {f : γ → Except Fault α} {f' : γ → Except Fault β} (h : ∀ y, Tally A (f y) (f' y))
    (ys : List γ) : Tally (List.Forall₂ A) (ys.mapM f) (ys.mapM f') := by
  induction ys with
  | nil => exact pure .nil
  | cons y ys ih =>
    rw [List.mapM_cons, List.mapM_cons]
    exact (h y).bind fun _ _ ha => ih.bind fun _ _ has => pure (.cons ha has)

end Tally

/-! ### Sorts -/

namespace Term

/-- Terms of one sort. -/
def Level (t t' : SomeTerm) : Prop := t'.1 = t.1

theorem Level.of_sort {s : TSort} (x x' : Term s) : Level ⟨s, x⟩ ⟨s, x'⟩ := rfl

variable {x x' y y' z z' : SomeTerm}

theorem word_level (h : Level x x') (what : String) :
    Tally (fun p p' => p'.1 = p.1) (x.word what) (x'.word what) := by
  obtain ⟨s, x⟩ := x
  obtain ⟨s', x'⟩ := x'
  cases (h : s' = s)
  cases s with
  | bv => exact .ok rfl
  | bool | mem => exact .error

theorem memory_level (h : Level x x') (what : String) :
    Tally (fun p p' => p'.1 = p.1 ∧ p'.2.1 = p.2.1) (x.memory what) (x'.memory what) := by
  obtain ⟨s, x⟩ := x
  obtain ⟨s', x'⟩ := x'
  cases (h : s' = s)
  cases s with
  | mem => exact .ok ⟨rfl, rfl⟩
  | bool | bv => exact .error

theorem as_level (h : Level x x') (s : TSort) : Tally (fun _ _ => True) (x.as s) (x'.as s) := by
  obtain ⟨s₀, x⟩ := x
  obtain ⟨s₀', x'⟩ := x'
  cases (h : s₀' = s₀)
  unfold SomeTerm.as
  split
  · exact .ok True.intro
  · exact .error

theorem extract_level (hi lo : Int) (x x' : Term (.bv w)) :
    Tally Level (extract hi lo x) (extract hi lo x') :=
  Tally.ite (fun _ => .ok rfl) fun _ => .error

theorem fitShift_level (w : Nat) (x x' : Term (.bv v)) :
    Tally (fun _ _ => True) (fitShift w x) (fitShift w x') := by
  unfold fitShift
  split
  · exact .ok True.intro
  · refine Tally.ite (fun _ => as_level (.of_sort _ _) _) fun _ => ?_
    exact (extract_level ..).bind fun _ _ h => as_level h _

theorem binary_level (op : BinOp) (hx : Level x x') (hy : Level y y') :
    Tally Level (binary op x y) (binary op x' y') := by
  refine (word_level hx _).bind ?_
  rintro ⟨w, x⟩ ⟨_, x'⟩ ⟨⟩
  refine (word_level hy _).bind ?_
  rintro ⟨v, y⟩ ⟨_, y'⟩ ⟨⟩
  dsimp only
  cases binRule op with
  | shift => exact (fitShift_level ..).bind fun _ _ _ => .pure rfl
  | arith | compare =>
    dsimp only
    split
    · exact .pure rfl
    · exact .throw _ _

theorem unary_level (op : UnOp) (hx : Level x x') : Tally Level (unary op x) (unary op x') := by
  refine (word_level hx _).bind ?_
  rintro ⟨w, x⟩ ⟨_, x'⟩ ⟨⟩
  cases op <;> exact .pure rfl

theorem castTo_level (kind : CastKind) (width : Int) (hx : Level x x') :
    Tally Level (castTo kind width x) (castTo kind width x') := by
  refine (word_level hx _).bind ?_
  rintro ⟨w, x⟩ ⟨_, x'⟩ ⟨⟩
  cases kind with
  | unsigned | signed =>
    exact .ite (fun _ => .pure rfl) fun _ => .ite (fun _ => extract_level ..) fun _ => .pure rfl
  | high | low => exact .ite (fun _ => .throw _ _) fun _ => extract_level ..

theorem extractBits_level (hi lo : Int) (hx : Level x x') :
    Tally Level (extractBits hi lo x) (extractBits hi lo x') := by
  refine (word_level hx _).bind ?_
  rintro ⟨w, x⟩ ⟨_, x'⟩ ⟨⟩
  exact .ite (fun _ => extract_level ..) fun _ => .throw _ _

theorem concatWords_level (hx : Level x x') (hy : Level y y') :
    Tally Level (concatWords x y) (concatWords x' y') := by
  refine (word_level hx _).bind ?_
  rintro ⟨w, x⟩ ⟨_, x'⟩ ⟨⟩
  refine (word_level hy _).bind ?_
  rintro ⟨v, y⟩ ⟨_, y'⟩ ⟨⟩
  exact .pure rfl

theorem condition_level (hx : Level x x') : Tally (fun _ _ => True) x.condition x'.condition := by
  refine (word_level hx _).bind ?_
  rintro ⟨w, x⟩ ⟨_, x'⟩ ⟨⟩
  exact .pure True.intro

theorem choose_level (hz : Level z z') (hx : Level x x') (hy : Level y y') :
    Tally Level (choose z x y) (choose z' x' y') := by
  obtain ⟨s, x⟩ := x
  obtain ⟨_, x'⟩ := x'
  obtain ⟨r, y⟩ := y
  obtain ⟨_, y'⟩ := y'
  cases hx
  cases hy
  unfold choose
  split
  · exact (condition_level hz).bind fun _ _ _ => .pure rfl
  · exact .error

theorem concatAll_level {ys ys' : List SomeTerm} (hx : Level x x') (hys : List.Forall₂ Level ys ys') :
    Tally Level (concatAll x ys) (concatAll x' ys') := by
  induction hys generalizing x x' with
  | nil => exact .ok hx
  | cons hy _ ih =>
    refine (word_level hx _).bind ?_
    rintro ⟨w, x⟩ ⟨_, x'⟩ ⟨⟩
    refine (word_level hy _).bind ?_
    rintro ⟨v, y⟩ ⟨_, y'⟩ ⟨⟩
    exact ih rfl

theorem readCells_level (cells cells' : List SomeTerm) : List.Forall₂ Level cells cells' →
    Tally Level
      (match cells with
        | [] => throw .illSorted
        | x :: xs => concatAll x xs)
      (match cells' with
        | [] => throw .illSorted
        | x :: xs => concatAll x xs) := by
  intro h
  cases h with
  | nil => exact .throw _ _
  | cons h hs => exact concatAll_level h hs

theorem load_level (size : Int) (endian : Endian) (hx : Level x x') (hy : Level y y') :
    Tally Level (load x y size endian) (load x' y' size endian) := by
  refine (memory_level hx _).bind ?_
  rintro ⟨a, c, x⟩ ⟨_, _, x'⟩ ⟨h, h'⟩
  cases h
  cases h'
  refine (Tally.refl _).bind ?_
  rintro n _ rfl
  refine (word_level hy _).bind fun _ _ _ => (as_level hy _).bind fun addr addr' _ => ?_
  have hcells : List.Forall₂ Level
      ((List.range n.toNat).map fun i => ⟨_, select x (offset addr i)⟩)
      ((List.range n.toNat).map fun i => ⟨_, select x' (offset addr' i)⟩) := by
    rw [List.forall₂_map_left_iff, List.forall₂_map_right_iff]
    exact List.forall₂_same.mpr fun _ _ => rfl
  cases endian with
  | little => exact readCells_level _ _ (List.rel_reverse hcells)
  | big => exact readCells_level _ _ hcells

theorem pieces_level (c : Nat) (size count : Nat) (endian : Endian) (hx : Level x x') :
    Tally (fun _ _ => True) (pieces c x size count endian) (pieces c x' size count endian) := by
  refine .ite (fun _ => (as_level hx _).bind fun _ _ _ => .pure True.intro) fun _ => ?_
  refine (word_level hx _).bind ?_
  rintro ⟨w, x⟩ ⟨_, x'⟩ ⟨⟩
  refine (Tally.mapM (A := fun _ _ => True) (fun i => ?_) _).mono fun _ _ _ _ _ => True.intro
  exact (extract_level ..).bind fun _ _ h => as_level h _

theorem storeWord_level (size : Int) (endian : Endian) (hx : Level x x') (hy : Level y y')
    (hz : Level z z') : Tally Level (storeWord x y z size endian) (storeWord x' y' z' size endian) := by
  refine (memory_level hx _).bind ?_
  rintro ⟨a, c, x⟩ ⟨_, _, x'⟩ ⟨h, h'⟩
  cases h
  cases h'
  refine (Tally.refl _).bind ?_
  rintro n _ rfl
  refine (word_level hy _).bind fun _ _ _ => (word_level hz _).bind ?_
  rintro ⟨w, z⟩ ⟨_, z'⟩ ⟨⟩
  refine .ite (fun _ => .throw _ _) fun _ => (as_level hy _).bind fun addr addr' _ => ?_
  exact (pieces_level c w n.toNat endian (.of_sort z z')).bind fun _ _ _ => .pure rfl

end Term

/-- The type of the variables whose constants have a sort. -/
def TSort.type? : TSort → Option Ty
  | .bool => none
  | .bv w => if 0 < w then some (.word w) else none
  | .mem a c => if 0 < a ∧ 0 < c then some (.memory a c) else none

theorem TSort.type?_eq {s : TSort} {type : Ty} : s.type? = some type ↔ type.sort = .ok s := by
  have hto {s : TSort} {type : Ty} (h : s.type? = some type) : type.sort = .ok s := by
    unfold type? at h
    split at h
    · cases h
    all_goals
      split at h
      · cases h
        exact if_pos (by omega)
      · cases h
  refine ⟨hto, fun h => ?_⟩
  have hsome : s.type?.isSome := by
    unfold Ty.sort at h
    split at h
    all_goals
      split at h
      · cases h
        rw [type?, if_pos (by omega)]
        rfl
      · cases h
  obtain ⟨type', ht⟩ := Option.isSome_iff_exists.mp hsome
  rw [ht, Ty.sort_inj (hto ht) h]

namespace IR.Renaming

variable (ρ : Renaming)

/-- The new name of a constant. Constants of variables get the names of the variables. -/
def name (n : String) (s : TSort) : String := (s.type?.map fun type => (ρ ⟨n, type⟩).name).getD n

/-- A constant counts unless it is that of a variable with another name, and that is not in `X`. -/
def Counts (X : Var → Prop) (n : String) (s : TSort) : Prop :=
  ∀ type, s.type? = some type → ρ.Moves ⟨n, type⟩ → X ⟨n, type⟩

/-- What a model tells of constants that count is what the other one tells of the renamed ones. -/
structure Sees (X : Var → Prop) (m m' : Model) : Prop where
  const : ρ.Counts X n s → m'.const (ρ.name n s) s = m.const n s
  func : m'.func = m.func

/-- The terms have one sort, and the same value wherever the same is seen. -/
structure Same (X : Var → Prop) (t t' : SomeTerm) : Prop where
  level : Level t t'
  value : ∀ m m', ρ.Sees X m m' → t'.value m' = t.value m

/-- A constant, and the constant with the new name. -/
def Consts (t t' : SomeTerm) : Prop := ∃ n s, t = ⟨s, .const n s⟩ ∧ t' = ⟨s, .const (ρ.name n s) s⟩

variable {ρ} {X Y : Var → Prop} {m m' : Model} {n n' : String} {s : TSort} {v : Var} {type : Ty}
  {t t' x x' y y' z z' : SomeTerm}

/-! ### Constants -/

theorem name_of_type (h : type.sort = .ok s) (n : String) : ρ.name n s = (ρ ⟨n, type⟩).name := by
  rw [name, TSort.type?_eq.mpr h]
  rfl

theorem name_inj : ρ.name n s = ρ.name n' s ↔ n = n' := by
  refine ⟨fun h => ?_, fun h => by rw [h]⟩
  unfold name at h
  cases hs : s.type? with
  | none => rwa [hs] at h
  | some type =>
    rw [hs] at h
    have hsort (n : String) : (ρ ⟨n, type⟩).type.sort = .ok s := by
      rw [ρ.type]
      exact TSort.type?_eq.mp hs
    exact congrArg Var.name (inj.mp (Var.eq_of_sort h (hsort n) (hsort n')))

theorem Counts.mono (h : ρ.Counts X n s) (hX : ∀ v, ρ.Moves v → X v → Y v) : ρ.Counts Y n s :=
  fun type hs hv => hX _ hv (h type hs hv)

theorem Sees.mono (h : ρ.Sees Y m m') (hX : ∀ v, ρ.Moves v → X v → Y v) : ρ.Sees X m m' :=
  ⟨fun hc => h.const (hc.mono hX), h.func⟩

/-- If no variable with another name counts, the model itself sees the same. -/
theorem Sees.self (m : Model) : ρ.Sees (fun _ => False) m m := by
  refine ⟨fun {n s} hc => ?_, rfl⟩
  unfold name
  cases hs : s.type? with
  | none => rfl
  | some type =>
    have hfix : ρ ⟨n, type⟩ = ⟨n, type⟩ := not_not.mp (hc type hs)
    rw [Option.map_some, Option.getD_some, hfix]

/-! ### Terms -/

theorem Same.mono (h : ρ.Same X t t') (hX : ∀ v, ρ.Moves v → X v → Y v) : ρ.Same Y t t' :=
  ⟨h.level, fun m m' hm => h.value m m' (hm.mono hX)⟩

theorem Consts.same (h : ρ.Consts t t')
    (hX : ∀ n s, t = ⟨s, .const n s⟩ → ρ.Counts X n s) : ρ.Same X t t' := by
  obtain ⟨n, s, rfl, rfl⟩ := h
  exact ⟨rfl, fun m m' hm => congrArg (Sigma.mk s) (hm.const (hX n s rfl))⟩

theorem Same.of_tally {r r' : Except Fault SomeTerm} (h : Tally Level r r')
    (hv : ∀ a b, r = .ok a → r' = .ok b → ∀ m m', ρ.Sees X m m' → some (b.value m') = some (a.value m)) :
    Tally (ρ.Same X) r r' :=
  h.mono fun a b ha hb hl => ⟨hl, fun m m' hm => Option.some.inj (hv a b ha hb m m' hm)⟩

theorem Same.word {w : Nat} {p p' : Term (.bv w)} (h : ρ.Same X ⟨_, p⟩ ⟨_, p'⟩) (hm : ρ.Sees X m m') :
    p'.bits m' = p.bits m := eq_of_heq (Sigma.mk.inj (h.value m m' hm)).2

theorem Same.holds {p p' : Term .bool} (h : ρ.Same X ⟨_, p⟩ ⟨_, p'⟩) (hm : ρ.Sees X m m') :
    p'.holds m' = p.holds m := eq_of_heq (Sigma.mk.inj (h.value m m' hm)).2

theorem Same.of_holds {p p' : Term .bool} (h : ∀ m m', ρ.Sees X m m' → p'.holds m' = p.holds m) :
    ρ.Same X ⟨_, p⟩ ⟨_, p'⟩ := ⟨rfl, fun m m' hm => congrArg (Sigma.mk TSort.bool) (h m m' hm)⟩

theorem Same.of_bits {w : Nat} {p p' : Term (.bv w)} (h : ∀ m m', ρ.Sees X m m' → p'.bits m' = p.bits m) :
    ρ.Same X ⟨_, p⟩ ⟨_, p'⟩ := ⟨rfl, fun m m' hm => congrArg (Sigma.mk (TSort.bv w)) (h m m' hm)⟩

/-! ### Operations -/

theorem Same.binary (op : BinOp) (hx : ρ.Same X x x') (hy : ρ.Same X y y') :
    Tally (ρ.Same X) (Term.binary op x y) (Term.binary op x' y') := by
  refine Same.of_tally (binary_level op hx.level hy.level) fun a b ha hb m m' hm => ?_
  rw [← binary_value ha m, ← binary_value hb m', hx.value m m' hm, hy.value m m' hm]

theorem Same.unary (op : UnOp) (hx : ρ.Same X x x') : Tally (ρ.Same X) (Term.unary op x) (Term.unary op x') := by
  refine Same.of_tally (unary_level op hx.level) fun a b ha hb m m' hm => ?_
  rw [← unary_value ha m, ← unary_value hb m', hx.value m m' hm]

theorem Same.castTo (kind : CastKind) (width : Int) (hx : ρ.Same X x x') :
    Tally (ρ.Same X) (Term.castTo kind width x) (Term.castTo kind width x') := by
  refine Same.of_tally (castTo_level kind width hx.level) fun a b ha hb m m' hm => ?_
  rw [← castTo_value ha m, ← castTo_value hb m', hx.value m m' hm]

theorem Same.extractBits (hi lo : Int) (hx : ρ.Same X x x') :
    Tally (ρ.Same X) (Term.extractBits hi lo x) (Term.extractBits hi lo x') := by
  refine Same.of_tally (extractBits_level hi lo hx.level) fun a b ha hb m m' hm => ?_
  rw [← extractBits_value ha m, ← extractBits_value hb m', hx.value m m' hm]

theorem Same.concatWords (hx : ρ.Same X x x') (hy : ρ.Same X y y') :
    Tally (ρ.Same X) (Term.concatWords x y) (Term.concatWords x' y') := by
  refine Same.of_tally (concatWords_level hx.level hy.level) fun a b ha hb m m' hm => ?_
  rw [← concatWords_value ha m, ← concatWords_value hb m', hx.value m m' hm, hy.value m m' hm]

theorem Same.choose (hz : ρ.Same X z z') (hx : ρ.Same X x x') (hy : ρ.Same X y y') :
    Tally (ρ.Same X) (Term.choose z x y) (Term.choose z' x' y') := by
  refine Same.of_tally (choose_level hz.level hx.level hy.level) fun a b ha hb m m' hm => ?_
  rw [← choose_value ha m, ← choose_value hb m', hz.value m m' hm, hx.value m m' hm, hy.value m m' hm]

theorem Same.load (size : Int) (endian : Endian) (hx : ρ.Same X x x') (hy : ρ.Same X y y') :
    Tally (ρ.Same X) (Term.load x y size endian) (Term.load x' y' size endian) := by
  refine Same.of_tally (load_level size endian hx.level hy.level) fun a b ha hb m m' hm => ?_
  rw [← load_value ha m, ← load_value hb m', hx.value m m' hm, hy.value m m' hm]

theorem Same.storeWord (size : Int) (endian : Endian) (hx : ρ.Same X x x') (hy : ρ.Same X y y')
    (hz : ρ.Same X z z') :
    Tally (ρ.Same X) (Term.storeWord x y z size endian) (Term.storeWord x' y' z' size endian) := by
  refine Same.of_tally (storeWord_level size endian hx.level hy.level hz.level) fun a b ha hb m m' hm => ?_
  rw [← storeWord_value ha m, ← storeWord_value hb m', hx.value m m' hm, hy.value m m' hm, hz.value m m' hm]

theorem Same.condition (hx : ρ.Same X x x') :
    Tally (fun p p' => ρ.Same X ⟨_, p⟩ ⟨_, p'⟩) x.condition x'.condition := by
  refine (condition_level hx.level).mono fun p p' hp hp' _ => .of_holds fun m m' hm => Option.some.inj ?_
  rw [← SomeTerm.condition_value hp, ← SomeTerm.condition_value hp', hx.value m m' hm]

theorem Same.sized (hx : ρ.Same X x x') :
    Tally (fun p p' => p'.1 = p.1 ∧ ρ.Same X ⟨_, p.2⟩ ⟨_, p'.2⟩) x.sized x'.sized := by
  obtain ⟨s, x⟩ := x
  obtain ⟨s', x'⟩ := x'
  cases hx.level
  cases s with
  | bv => exact .ok ⟨rfl, hx⟩
  | bool | mem => exact .error

theorem Same.as (hx : ρ.Same X x x') (s : TSort) :
    Tally (fun p p' => ρ.Same X ⟨s, p⟩ ⟨s, p'⟩) (x.as s) (x'.as s) := by
  refine (as_level hx.level s).mono fun p p' hp hp' _ => ?_
  rwa [SomeTerm.as_eq_ok hp, SomeTerm.as_eq_ok hp'] at hx

theorem Same.applyTo {r : TSort} {d : List TSort} {f f' : Spine d r} {xs xs' : List SomeTerm}
    (hf : ∀ m m', ρ.Sees X m m' → f'.eval m' = f.eval m) (h : List.Forall₂ (ρ.Same X) xs xs') :
    Tally (fun p p' => ρ.Same X ⟨r, p⟩ ⟨r, p'⟩) (f.applyTo xs) (f'.applyTo xs') := by
  induction h generalizing d with
  | nil =>
    cases d with
    | nil => exact .ok ⟨rfl, fun m m' hm => congrArg (Sigma.mk r) (hf m m' hm)⟩
    | cons => exact .error
  | cons hx _ ih =>
    cases d with
    | nil => exact .error
    | cons s d =>
      refine (hx.as s).bind fun p p' hp => ih fun m m' hm => ?_
      rw [Spine.eval, Spine.eval, hf m m' hm, eq_of_heq (Sigma.mk.inj (hp.value m m' hm)).2]

/-- A function of terms. Without arguments it is a constant. -/
theorem Same.apply (f : FuncDecl) {xs xs' : List SomeTerm} (h : List.Forall₂ (ρ.Same X) xs xs')
    (hc : ρ.Same X ⟨f.ran, .const f.name f.ran⟩ ⟨f.ran, .const f.name f.ran⟩) :
    Tally (ρ.Same X) (f.apply xs) (f.apply xs') := by
  have hfunc : Tally (ρ.Same X) (do return ⟨_, ← Spine.applyTo (.op (.func f.name f.dom f.ran)) xs⟩)
      (do return ⟨_, ← Spine.applyTo (.op (.func f.name f.dom f.ran)) xs'⟩) := by
    refine (Same.applyTo (fun m m' hm => ?_) h).bind fun _ _ hp => .pure hp
    exact congrFun (congrFun (congrFun hm.func _) _) _
  obtain ⟨name, dom, ran⟩ := f
  cases h with
  | nil =>
    cases dom with
    | nil => exact .ok hc
    | cons => exact hfunc
  | cons => cases dom <;> exact hfunc

end IR.Renaming

end Precond
