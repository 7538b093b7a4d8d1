import Mathlib.Data.List.Forall2
import Precond.Proofs.Smt.Alike
import Precond.Proofs.Smt.Tokens
import Precond.Walk.Formula

/-! Conditions in texts. A text that is no assertion is put into one, and what it asserts is told by what
it writes alone (`Smt.Imports`): a term asserts itself and assertions assert their terms, so that the goal
of a text is true where these are (`Walk.formula_imports`). Texts are told apart by their first characters
only. So names that begin as that of an assertion are passed by, a comment behind a term hides the bracket
that is put there, and brackets that a text does not open may close the assertion around it. -/

namespace Precond.Smt

/-! ### What data stands for -/

section

open Datum

variable {d : Decls} {x : Datum} {xs : List Datum} {n m : Nat}

theorem length_tokens_lt (hx : x ∈ xs) : x.tokens.length < (Datum.list xs).tokens.length := by
  rw [Datum.tokens, List.length_cons, List.length_append]
  exact Nat.lt_succ_of_le (Nat.le_trans (length_tokens_le hx) (Nat.le_add_right _ _))

/-- More levels than a datum has tokens read no more of it. -/
theorem term_fuel (hn : x.tokens.length ≤ n) (hm : x.tokens.length ≤ m) : term n d x = term m d x := by
  induction n generalizing m d x with
  | zero => exact absurd hn (Nat.not_le_of_lt (length_tokens_pos x))
  | succ n ih =>
    cases m with
    | zero => exact absurd hm (Nat.not_le_of_lt (length_tokens_pos x))
    | succ m =>
      have hpart {d : Decls} {xs : List Datum} {y : Datum} (hy : y ∈ xs)
          (hxn : (Datum.list xs).tokens.length ≤ n + 1) (hxm : (Datum.list xs).tokens.length ≤ m + 1) :
          term n d y = term m d y :=
        ih (Nat.le_of_lt_succ (Nat.lt_of_lt_of_le (length_tokens_lt hy) hxn))
          (Nat.le_of_lt_succ (Nat.lt_of_lt_of_le (length_tokens_lt hy) hxm))
      unfold term
      split
      · rfl
      · rfl
      · rename_i bindings body
        have hbindings : ∀ b ∈ bindings, b.tokens.length ≤ n + 1 ∧ b.tokens.length ≤ m + 1 := by
          intro b hb
          have hlist := length_tokens_lt hb
          have hlet : (Datum.list bindings).tokens.length <
              (Datum.list [.atom (.symbol "let"), .list bindings, body]).tokens.length :=
            length_tokens_lt (List.mem_cons_of_mem _ List.mem_cons_self)
          exact ⟨by omega, by omega⟩
        rw [mapM_congr_mem fun b hb => ?_]
        · exact Option.bind_congr fun bound _ =>
            hpart (List.mem_cons_of_mem _ (List.mem_cons_of_mem _ List.mem_cons_self)) hn hm
        · obtain ⟨hbn, hbm⟩ := hbindings b hb
          split
          · rw [hpart (List.mem_cons_of_mem _ List.mem_cons_self) hbn hbm]
          · rfl
      · exact hpart (List.mem_cons_of_mem _ List.mem_cons_self) hn hm
      · rw [hpart (List.mem_cons_of_mem _ List.mem_cons_self) hn hm]
      · rw [mapM_congr_mem fun y hy => hpart (List.mem_cons_of_mem _ hy) hn hm]
      · rfl

/-- The term that a datum stands for. -/
def Datum.term? (d : Decls) (x : Datum) : Option SomeTerm := term x.tokens.length d x

theorem term_eq (h : x.tokens.length ≤ n) : term n d x = x.term? d := term_fuel h (Nat.le_refl _)

/-- What a command asserts. A command of another name asserts nothing. -/
inductive Command (d : Decls) : Datum → Option (Term .bool) → Prop
  | assert {x : Datum} {p : Term .bool} : x.term? d = some ⟨.bool, p⟩ →
    Command d (.list [.atom (.symbol "assert"), x]) (some p)
  | other {name : String} {args : List Datum} : name ≠ "assert" →
    Command d (.list (.atom (.symbol name) :: args)) none

theorem assertion_iff {p : Option (Term .bool)} (h : x.tokens.length ≤ n) :
    assertion n d x = some p ↔ Command d x p := by
  constructor
  · intro hp
    unfold assertion at hp
    split at hp
    · split at hp
      · rename_i y
        have hy : y.tokens.length ≤ n := Nat.le_trans
          (Nat.le_of_lt (length_tokens_lt (List.mem_cons_of_mem _ List.mem_cons_self))) h
        rw [term_eq hy] at hp
        split at hp
        · rename_i hterm
          cases hp
          exact .assert hterm
        · cases hp
      · cases hp
    · rename_i name args hname
      cases hp
      exact .other hname
    · cases hp
  · intro hp
    cases hp with
    | @assert y p hterm =>
      have hy : y.tokens.length ≤ n := Nat.le_trans
        (Nat.le_of_lt (length_tokens_lt (List.mem_cons_of_mem _ List.mem_cons_self))) h
      rw [assertion, term_eq hy, hterm]
    | @other name args hname =>
      rw [assertion]
      exact hname

theorem forall₂_congr_mem {α β : Type} {R S : α → β → Prop} {as : List α} {bs : List β}
    (h : ∀ a ∈ as, ∀ b, R a b ↔ S a b) : List.Forall₂ R as bs ↔ List.Forall₂ S as bs := by
  induction as generalizing bs with
  | nil => rw [List.forall₂_nil_left_iff, List.forall₂_nil_left_iff]
  | cons a as ih =>
    obtain ⟨ha, has⟩ := List.forall_mem_cons.mp h
    simp only [List.forall₂_cons_left_iff, ha, ih has]

theorem mapM_iff {α β : Type} {f : α → Option β} {as : List α} {bs : List β} :
    as.mapM f = some bs ↔ List.Forall₂ (fun a b => f a = some b) as bs := by
  induction as generalizing bs with
  | nil =>
    rw [List.forall₂_nil_left_iff]
    exact ⟨fun h => (Option.some.inj h).symm, fun h => by rw [h]; rfl⟩
  | cons a as ih =>
    rw [List.mapM_cons, List.forall₂_cons_left_iff]
    constructor
    · intro h
      obtain ⟨b, hb, h⟩ := Option.bind_eq_some_iff.mp h
      obtain ⟨bs, hbs, h⟩ := Option.bind_eq_some_iff.mp h
      cases h
      exact ⟨b, bs, hb, ih.mp hbs, rfl⟩
    · rintro ⟨b, bs, hb, hbs, rfl⟩
      rw [hb, ih.mpr hbs]
      rfl

/-! ### Texts -/

/-- A text writes data, and ends within a comment or not. -/
def Writes (cs : List Char) (xs : List Datum) (open_ : Bool) : Prop :=
  (∀ x ∈ xs, x.Nested) ∧ Lexes cs (tokensAll xs) open_

theorem data?_iff {text : String} : data? text = some xs ↔ ∃ b, Writes text.toList xs b := by
  have hlen : text.toList.length ≤ text.length + 1 := by
    rw [String.length_toList]
    exact Nat.le_succ _
  constructor
  · intro h
    obtain ⟨ts, hts, hnest⟩ := Option.bind_eq_some_iff.mp h
    obtain ⟨hxs, rfl⟩ := nest_iff.mp hnest
    obtain ⟨b, hb⟩ := (tokens_iff hlen).mp hts
    exact ⟨b, hxs, hb⟩
  · rintro ⟨b, hxs, hb⟩
    exact Option.bind_eq_some_iff.mpr
      ⟨_, (tokens_iff hlen).mpr ⟨b, hb⟩, nest_iff.mpr ⟨hxs, rfl⟩⟩

/-- A declared name stands for a constant. -/
def Decls.Constants (d : Decls) : Prop := ∀ e ∈ d, e.2.2.size = 1

theorem assertions_iff {text : String} {ps : List (Term .bool)} : assertions d text = some ps ↔
    d.Constants ∧ ∃ xs b found, Writes (script text).toList xs b ∧
      List.Forall₂ (Command d) xs found ∧ ps = found.filterMap id := by
  have hdecls : (!d.all fun e => e.2.2.size == 1) = true ↔ ¬ d.Constants := by
    simp [Decls.Constants]
  have hfound {xs : List Datum} {b : Bool} (hw : Writes (script text).toList xs b)
      {found : List (Option (Term .bool))} :
      xs.mapM (assertion ((script text).length + 1) d) = some found ↔
        List.Forall₂ (Command d) xs found := by
    rw [mapM_iff]
    have hle : ∀ x ∈ xs, x.tokens.length ≤ (script text).length + 1 := fun x hx => by
      have hlen := (length_tokens_le hx).trans hw.2.length_le
      rw [String.length_toList] at hlen
      exact Nat.le_succ_of_le hlen
    exact forall₂_congr_mem fun x hx p => assertion_iff (hle x hx)
  change (if (!d.all fun e => e.2.2.size == 1) = true then none else _) = some ps ↔ _
  by_cases hd : d.Constants
  · rw [if_neg (not_not.mpr hd ∘ hdecls.mp)]
    constructor
    · intro h
      obtain ⟨xs, hxs, h⟩ := Option.bind_eq_some_iff.mp h
      obtain ⟨found, hf, h⟩ := Option.bind_eq_some_iff.mp h
      obtain ⟨b, hw⟩ := data?_iff.mp hxs
      exact ⟨hd, xs, b, found, hw, (hfound hw).mp hf, (Option.some.inj h).symm⟩
    · rintro ⟨-, xs, b, found, hw, hf, rfl⟩
      exact Option.bind_eq_some_iff.mpr ⟨xs, data?_iff.mpr ⟨b, hw⟩,
        Option.bind_eq_some_iff.mpr ⟨found, (hfound hw).mpr hf, rfl⟩⟩
  · rw [if_pos (hdecls.mpr hd)]
    exact ⟨nofun, fun h => absurd h.1 hd⟩

/-- The text without the blanks around it. -/
def body (text : String) : List Char := Text.trim Text.isMargin text.toList

/-- Whether a text begins as an assertion does, or as a command whose name goes on from there. -/
def Asserting (text : String) : Prop := startsWith "(assert".toList (body text) = true

theorem script_eq (text : String) : script text =
    if startsWith "(assert".toList (body text) = true then String.ofList (body text)
    else "(assert " ++ String.ofList (body text) ++ ")" := rfl

theorem script_of_asserting {text : String} (h : Asserting text) : (script text).toList = body text := by
  rw [Asserting] at h
  rw [script_eq, if_pos h, String.toList_ofList]

theorem script_of_not_asserting {text : String} (h : ¬ Asserting text) :
    (script text).toList = "(assert ".toList ++ (body text ++ [')']) := by
  rw [Asserting] at h
  rw [script_eq, if_neg h, String.toList_append, String.toList_append, String.toList_ofList,
    List.append_assoc]
  simp

section

variable {cs : List Char} {b : Bool} {ys : List Datum}

theorem Writes.unique {b' : Bool} (h : Writes cs xs b) (h' : Writes cs ys b') : xs = ys ∧ b = b' := by
  obtain ⟨ht, hb⟩ := h.2.unique h'.2
  have hx := nest_iff.mpr ⟨h.1, rfl⟩
  rw [ht] at hx
  exact ⟨Option.some.inj (hx.symm.trans (nest_iff.mpr ⟨h'.1, rfl⟩)), hb⟩

/-- The datum that is a text put into an assertion. -/
theorem Writes.wrapped (h : Writes cs xs false) :
    Writes ("(assert ".toList ++ (cs ++ [')'])) [.list (.atom (.symbol "assert") :: xs)] false := by
  constructor
  · rw [List.forall_mem_singleton]
    exact .list (List.forall_mem_cons.mpr ⟨.atom nofun nofun, h.1⟩)
  · refine lexes_assert.mpr ⟨tokensAll xs ++ [.close], ?_, h.2.snoc⟩
    simp [tokensAll, Datum.tokens]

/-- A comment at the end hides the bracket behind it. -/
theorem Writes.not_wrapped (h : Writes cs xs true) :
    ¬ Writes ("(assert ".toList ++ (cs ++ [')'])) ys b := by
  intro hw
  obtain ⟨ts, hts, hlex⟩ := lexes_assert.mp hw.2
  obtain ⟨rfl, -⟩ := hlex.unique h.2.snoc
  rw [if_pos rfl] at hts
  have hnest := nest_iff.mpr ⟨hw.1, rfl⟩
  have hopen := nest_tokensAll h.1 [[]] [.atom (.symbol "assert")] []
  rw [List.append_nil] at hopen
  rw [hts] at hnest
  change nest [[]] [.atom (.symbol "assert")] (tokensAll xs) = _ at hnest
  rw [hopen] at hnest
  cases hnest

end

/-- No operator has a name that begins as the name of an assertion does. -/
theorem applyNamed_assert {name : String} (h : name.toList.take 6 = "assert".toList)
    (args : List SomeTerm) : applyNamed name args = none := by
  have hnames {β : Type} {t : List (String × β)} (ht : ∀ k ∈ t.map (·.1), k.toList.take 6 ≠ "assert".toList) :
      t.lookup name = none := by
    rw [List.lookup_eq_none_iff]
    rintro ⟨k, b⟩ hk
    have hne : k ≠ name := by
      rintro rfl
      exact ht k (List.mem_map_of_mem hk) h
    simpa using Ne.symm hne
  have hbin : binNames.lookup name = none := hnames (by decide)
  have hcmp : cmpNames.lookup name = none := hnames (by decide)
  have hun : unNames.lookup name = none := hnames (by decide)
  unfold applyNamed
  rw [hbin, hcmp, hun]
  dsimp only
  split <;> first | rfl | exact absurd h (by decide)

/-- What begins as an assertion does is no term. -/
theorem term?_of_asserting {text : String} {b : Bool} (h : Asserting text)
    (hw : Writes (body text) [x] b) : x.term? d = none := by
  have hbody : body text = "(assert".toList ++ (body text).drop 7 := by
    rw [Asserting, startsWith, beq_iff_eq] at h
    exact (List.take_append_drop 7 _).symm.trans (congrArg (· ++ _) h)
  obtain ⟨hx, hlex⟩ := hw
  rw [hbody] at hlex
  obtain ⟨cs, ts, hts⟩ := lexes_asserting hlex
  rw [tokensAll, tokensAll, List.append_nil] at hts
  have hname : (String.ofList ("assert".toList ++ cs)).toList.take 6 = "assert".toList := by
    rw [String.toList_ofList]
    rfl
  generalize String.ofList ("assert".toList ++ cs) = name at hname hts
  obtain ⟨args, rfl⟩ := eq_list_of_tokens hts (hx x List.mem_cons_self)
  have hne {known : String} (hk : known.toList.take 6 ≠ "assert".toList) : name ≠ known := fun he =>
    hk (he ▸ hname)
  rw [Datum.term?, hts, List.length_cons, term]
  · split
    · rfl
    · rw [Option.bind_eq_bind, Option.bind_eq_none_iff]
      exact fun ts _ => applyNamed_assert hname ts
  · exact fun _ _ _ => hne (by decide)
  · exact fun _ _ _ => hne (by decide)
  · exact fun _ _ _ => hne (by decide)

/-- What a text asserts. A bare formula asserts itself, unless a comment behind it hides the bracket
that is put there. Assertions are such from the first character on. The two other ways are not meant:
commands whose names only begin as that of an assertion are passed by, and brackets of a text that does
not open them may close the assertion that is put around it. -/
inductive Imports (d : Decls) (text : String) : List (Term .bool) → Prop
  | term {x : Datum} {p : Term .bool} : d.Constants → Writes (body text) [x] false →
    x.term? d = some ⟨.bool, p⟩ → Imports d text [p]
  | asserts {xs : List Datum} {b : Bool} {ps : List (Term .bool)} : d.Constants → Asserting text →
    Writes (body text) xs b → List.Forall₂ (fun x p => Command d x (some p)) xs ps → Imports d text ps
  | skips {xs : List Datum} {b : Bool} {found : List (Option (Term .bool))} : d.Constants →
    Asserting text → Writes (body text) xs b → List.Forall₂ (Command d) xs found → none ∈ found →
    Imports d text (found.filterMap id)
  | unbalanced {xs : List Datum} {b : Bool} {found : List (Option (Term .bool))} : d.Constants →
    ¬ Asserting text → (∀ ys b, ¬ Writes (body text) ys b) →
    Writes ("(assert ".toList ++ (body text ++ [')'])) xs b → List.Forall₂ (Command d) xs found →
    Imports d text (found.filterMap id)

theorem forall₂_some {α β : Type} {R : α → Option β → Prop} {as : List α} {bs : List (Option β)}
    (h : List.Forall₂ R as bs) (hbs : none ∉ bs) :
    List.Forall₂ (fun a b => R a (some b)) as (bs.filterMap id) := by
  induction h with
  | nil => exact .nil
  | @cons a b as bs hab _ ih =>
    rw [List.mem_cons, not_or] at hbs
    cases b with
    | none => exact absurd rfl hbs.1
    | some b => exact .cons hab (ih hbs.2)

theorem imports_iff {text : String} {ps : List (Term .bool)} :
    assertions d text = some ps ↔ Imports d text ps := by
  rw [assertions_iff]
  constructor
  · rintro ⟨hd, xs, b, found, hw, hf, rfl⟩
    by_cases ha : Asserting text
    · rw [script_of_asserting ha] at hw
      by_cases hnone : none ∈ found
      · exact .skips hd ha hw hf hnone
      · exact .asserts hd ha hw (forall₂_some hf hnone)
    · rw [script_of_not_asserting ha] at hw
      by_cases hbody : ∃ ys b, Writes (body text) ys b
      · obtain ⟨ys, open_, hys⟩ := hbody
        cases open_ with
        | true => exact absurd hw hys.not_wrapped
        | false =>
          obtain ⟨rfl, -⟩ := hys.wrapped.unique hw
          obtain _ | ⟨hcmd, _ | _⟩ := hf
          cases hcmd with
          | assert hterm => exact .term hd hys hterm
          | other hname => exact absurd rfl hname
      · exact .unbalanced hd ha (fun ys b hys => hbody ⟨ys, b, hys⟩) hw hf
  · intro h
    cases h with
    | @term x p hd hw hterm =>
      have ha : ¬ Asserting text := fun ha => by
        rw [term?_of_asserting ha hw] at hterm
        cases hterm
      refine ⟨hd, _, false, [some p], ?_, .cons (.assert hterm) .nil, rfl⟩
      rw [script_of_not_asserting ha]
      exact hw.wrapped
    | @asserts xs b ps hd ha hw hf =>
      refine ⟨hd, xs, b, ps.map some, ?_, ?_, by simp⟩
      · rwa [script_of_asserting ha]
      · rwa [List.forall₂_map_right_iff]
    | @skips xs b found hd ha hw hf _ =>
      exact ⟨hd, xs, b, found, by rwa [script_of_asserting ha], hf, rfl⟩
    | @unbalanced xs b found hd ha _ hw hf =>
      exact ⟨hd, xs, b, found, by rwa [script_of_not_asserting ha], hf, rfl⟩

/-- A bare formula with a comment behind it asserts nothing. -/
theorem not_imports_of_comment {text : String} (ha : ¬ Asserting text)
    (hw : Writes (body text) xs true) (ps : List (Term .bool)) : ¬ Imports d text ps := by
  intro h
  cases h with
  | term _ hw' => cases (hw.unique hw').2
  | asserts _ ha' | skips _ ha' => exact ha ha'
  | unbalanced _ _ hno => exact hno _ _ hw

end

end Precond.Smt

namespace Precond.Walk

/-- The goal of a text. -/
theorem formula_imports (d : Smt.Decls) (text : String) (w : World) :
    (∃ ps, Smt.Imports d text ps ∧ (∀ qs, Smt.Imports d text qs → qs = ps) ∧
      ∃ c w', formula text d w = .ok c w' ∧ ∀ m, c.holds m = true ↔ ∀ p ∈ ps, p.holds m = true) ∨
    (∀ ps, ¬ Smt.Imports d text ps) ∧
      formula text d w = .error (.config (.badFormula text)) w := by
  unfold formula
  simp only [← Smt.imports_iff]
  cases hps : Smt.assertions d text with
  | none => exact .inr ⟨nofun, rfl⟩
  | some ps =>
    refine .inl ⟨ps, rfl, fun qs hqs => (Option.some.inj hqs).symm, ?_⟩
    rcases ps with _ | ⟨p, _ | ⟨q, ps⟩⟩
    · exact ⟨_, _, rfl, fun m => iff_of_true rfl nofun⟩
    · refine ⟨_, _, rfl, fun m => ?_⟩
      exact (List.forall_mem_singleton (p := fun q : Term .bool => q.holds m = true)).symm
    · refine ⟨_, _, rfl, fun m => ?_⟩
      rw [Constr.holds, Spine.holds_and, List.all_eq_true]

/-- A command that only begins as an assertion does asserts nothing, and its goal always holds. -/
theorem formula_imports_skipping : ∃ w c w', formula "(assertx false)" [] w = .ok c w' ∧
    Smt.Imports [] "(assertx false)" [] ∧ ∀ m, c.holds m = true := by
  have hnone : (Smt.assertions [] "(assertx false)").map List.length = some 0 := by decide +kernel
  obtain ⟨ps, hps, hlen⟩ := Option.map_eq_some_iff.mp hnone
  rw [List.eq_nil_of_length_eq_zero hlen] at hps
  have himports := Smt.imports_iff.mp hps
  let w : World := .start (Env.start .arm []) (Env.start .arm [])
  obtain ⟨ps, -, hunique, c, w', hc, hm⟩ | ⟨hno, -⟩ := formula_imports [] "(assertx false)" w
  · refine ⟨w, c, w', hc, himports, fun m => (hm m).mpr ?_⟩
    rw [← hunique [] himports]
    exact nofun
  · exact absurd himports (hno [])

end Precond.Walk
