import Precond.Smt.Formula

/-! Tokens and nesting. A text has the tokens that one step after the other finds in it (`Lexes`), and it
may end within a comment; a bracket behind it is a token of its own unless it does (`Lexes.snoc`).
Nesting is the inverse of writing data as tokens (`nest_iff`). -/

namespace Precond.Smt

/-! ### Tokens -/

section

variable {c : Char} {cs rest : List Char} {t : Token} {ts us : List Token} {b : Bool} {n : Nat}

/-- The tokens of a text, and whether the text ends within a comment. -/
inductive Lexes : List Char → List Token → Bool → Prop
  | nil : Lexes [] [] false
  | space {c : Char} {cs : List Char} {ts : List Token} {b : Bool} :
    isSpace c = true → Lexes cs ts b → Lexes (c :: cs) ts b
  | line {cs : List Char} {ts : List Token} {b : Bool} : cs.dropWhile (· != '\n') ≠ [] →
    Lexes (cs.dropWhile (· != '\n')) ts b → Lexes (';' :: cs) ts b
  | last {cs : List Char} : cs.dropWhile (· != '\n') = [] → Lexes (';' :: cs) [] true
  | token {c : Char} {cs rest : List Char} {t : Token} {ts : List Token} {b : Bool} :
    isSpace c = false → c ≠ ';' → next c cs = some (t, rest) → Lexes rest ts b →
    Lexes (c :: cs) (t :: ts) b

theorem length_dropWhile_le (p : Char → Bool) (cs : List Char) : (cs.dropWhile p).length ≤ cs.length :=
  (List.dropWhile_suffix p).length_le

theorem skipTo_length {mark : Char} {doubled : Bool} (h : skipTo mark doubled cs = some rest) :
    rest.length ≤ cs.length := by
  fun_induction skipTo mark doubled cs with
  | case1 => cases h
  | case2 | case3 => cases h <;> simp
  | case4 d cs hd ih => exact Nat.le_trans (ih h) (Nat.le_succ_of_le (Nat.le_succ _))
  | case5 d cs hd => cases h; simp
  | case6 c d cs hc ih => exact Nat.le_trans (ih h) (by simp)

theorem next_length (h : next c cs = some (t, rest)) : rest.length ≤ cs.length := by
  have hdrop (p : Char → Bool) := length_dropWhile_le p cs
  unfold next at h
  split at h
  · cases h
    exact Nat.le_refl _
  split at h
  · cases h
    exact Nat.le_refl _
  split at h
  · dsimp only at h
    split at h
    · cases h
    · rename_i hd
      cases h
      have := hdrop (· != '|')
      rw [hd, List.length_cons] at this
      omega
  split at h
  · obtain ⟨r, hr, he⟩ := Option.map_eq_some_iff.mp h
    cases he
    exact skipTo_length hr
  split at h
  · cases h
    exact hdrop _
  split at h
  · split at h
    · dsimp only at h
      split at h <;> cases h
      exact Nat.le_succ_of_le (length_dropWhile_le _ _)
    · dsimp only at h
      split at h <;> cases h
      exact Nat.le_succ_of_le (length_dropWhile_le _ _)
    · cases h
  split at h
  · dsimp only at h
    split at h
    · rename_i hd
      cases h
      have := hdrop Char.isDigit
      rw [hd, List.length_cons] at this
      exact Nat.le_trans (length_dropWhile_le _ _) (by omega)
    · cases h
      exact hdrop _
  split at h
  · cases h
    exact hdrop _
  · cases h

/-- One step of the reading of tokens. -/
theorem lexes_cons : Lexes (c :: cs) ts b ↔
    if isSpace c then Lexes cs ts b
    else if c = ';' then
      if cs.dropWhile (· != '\n') = [] then ts = [] ∧ b = true
      else Lexes (cs.dropWhile (· != '\n')) ts b
    else ∃ t rest us, next c cs = some (t, rest) ∧ ts = t :: us ∧ Lexes rest us b := by
  constructor
  · intro h
    cases h with
    | space hs h => rwa [if_pos hs]
    | line hd h => rwa [if_neg (by decide), if_pos rfl, if_neg hd]
    | last hd => rw [if_neg (by decide), if_pos rfl, if_pos hd]; exact ⟨rfl, rfl⟩
    | token hs hc hn h =>
      rw [if_neg (by rw [hs]; exact Bool.false_ne_true), if_neg hc]
      exact ⟨_, _, _, hn, rfl, h⟩
  · intro h
    split at h
    · exact .space ‹_› h
    · rename_i hs
      split at h
      · rename_i hc
        subst hc
        split at h
        · obtain ⟨rfl, rfl⟩ := h
          exact .last ‹_›
        · exact .line ‹_› h
      · obtain ⟨t, rest, us, hn, rfl, h⟩ := h
        exact .token (eq_false_of_ne_true hs) ‹_› hn h

theorem lexes_of_next (hs : isSpace c = false) (hc : c ≠ ';') (hn : next c cs = some (t, rest)) :
    Lexes (c :: cs) us b ↔ ∃ ts, us = t :: ts ∧ Lexes rest ts b := by
  rw [lexes_cons, if_neg (by rw [hs]; exact Bool.false_ne_true), if_neg hc]
  constructor
  · rintro ⟨t', rest', ts, hn', rfl, h⟩
    cases hn.symm.trans hn'
    exact ⟨ts, rfl, h⟩
  · rintro ⟨ts, rfl, h⟩
    exact ⟨t, rest, ts, hn, rfl, h⟩

theorem tokens_iff (h : cs.length ≤ n) : tokens n cs = some ts ↔ ∃ b, Lexes cs ts b := by
  induction n generalizing cs ts with
  | zero =>
    obtain rfl : cs = [] := List.length_eq_zero_iff.mp (Nat.le_zero.mp h)
    exact ⟨fun ht => by cases ht; exact ⟨_, .nil⟩, fun ⟨_, hl⟩ => by cases hl; rfl⟩
  | succ n ih =>
    cases cs with
    | nil => exact ⟨fun ht => by cases ht; exact ⟨_, .nil⟩, fun ⟨_, hl⟩ => by cases hl; rfl⟩
    | cons c cs =>
      have hcs : cs.length ≤ n := Nat.le_of_succ_le_succ h
      have hline := Nat.le_trans (length_dropWhile_le (· != '\n') cs) hcs
      simp only [lexes_cons]
      rw [tokens]
      split
      · exact ih hcs
      split
      · rw [ih hline]
        split
        · rename_i hd
          rw [hd]
          exact ⟨fun ⟨_, hl⟩ => by cases hl; exact ⟨_, rfl, rfl⟩, fun ⟨_, ht, _⟩ => ⟨_, ht ▸ Lexes.nil⟩⟩
        · rfl
      · constructor
        · intro ht
          obtain ⟨⟨t, rest⟩, hn, ht⟩ := Option.bind_eq_some_iff.mp ht
          obtain ⟨us, hus, ht⟩ := Option.bind_eq_some_iff.mp ht
          cases ht
          obtain ⟨b, hl⟩ := (ih (Nat.le_trans (next_length hn) hcs)).mp hus
          exact ⟨b, t, rest, us, hn, rfl, hl⟩
        · rintro ⟨b, t, rest, us, hn, rfl, hl⟩
          have hus := (ih (Nat.le_trans (next_length hn) hcs)).mpr ⟨b, hl⟩
          rw [hn]
          exact Option.bind_eq_some_iff.mpr ⟨_, rfl, Option.bind_eq_some_iff.mpr ⟨us, hus, rfl⟩⟩

theorem Lexes.unique {b' : Bool} (h : Lexes cs ts b) (h' : Lexes cs us b') : ts = us ∧ b = b' := by
  induction h generalizing us b' with
  | nil =>
    cases h'
    exact ⟨rfl, rfl⟩
  | space hs _ ih =>
    rw [lexes_cons, if_pos hs] at h'
    exact ih h'
  | line hd _ ih =>
    rw [lexes_cons, if_neg (by decide), if_pos rfl, if_neg hd] at h'
    exact ih h'
  | last hd =>
    rw [lexes_cons, if_neg (by decide), if_pos rfl, if_pos hd] at h'
    exact ⟨h'.1.symm, h'.2.symm⟩
  | token hs hc hn _ ih =>
    obtain ⟨us, rfl, hus⟩ := (lexes_of_next hs hc hn).mp h'
    obtain ⟨rfl, hb⟩ := ih hus
    exact ⟨rfl, hb⟩

theorem Lexes.length_le (h : Lexes cs ts b) : ts.length ≤ cs.length := by
  induction h with
  | nil => exact Nat.le_refl _
  | space _ _ ih => exact Nat.le_succ_of_le ih
  | line _ _ ih => exact Nat.le_succ_of_le (Nat.le_trans ih (length_dropWhile_le _ _))
  | last => exact Nat.zero_le _
  | token _ _ hn _ ih => exact Nat.succ_le_succ (Nat.le_trans ih (next_length hn))

/-! ### A bracket behind a text -/

theorem dropWhile_snoc {p : Char → Bool} (hp : p ')' = false) (cs : List Char) :
    (cs ++ [')']).dropWhile p = cs.dropWhile p ++ [')'] := by
  rw [List.dropWhile_append]
  split
  · rename_i hd
    rw [List.isEmpty_iff.mp hd, List.dropWhile_cons, hp, if_neg Bool.false_ne_true]
    rfl
  · rfl

theorem takeWhile_snoc {p : Char → Bool} (hp : p ')' = false) (cs : List Char) :
    (cs ++ [')']).takeWhile p = cs.takeWhile p := by
  rw [List.takeWhile_append]
  split
  · rename_i hl
    rw [List.takeWhile_cons, hp, if_neg Bool.false_ne_true, List.append_nil]
    exact (List.takeWhile_prefix p).eq_of_length hl |>.symm
  · rfl

theorem skipTo_snoc {mark : Char} (hm : mark ≠ ')') (doubled : Bool) (cs : List Char) :
    skipTo mark doubled (cs ++ [')']) = (skipTo mark doubled cs).map (· ++ [')']) := by
  have hend : skipTo mark doubled [')'] = none := by rw [skipTo, if_neg (Ne.symm hm)]
  fun_induction skipTo mark doubled cs with
  | case1 => exact hend
  | case2 =>
    rw [List.cons_append, List.nil_append, skipTo, if_pos rfl, if_neg]
    · rfl
    · simp [Ne.symm hm]
  | case3 c hc => rw [List.cons_append, List.nil_append, skipTo, if_neg hc, hend]; rfl
  | case4 d cs hd ih => rw [List.cons_append, List.cons_append, skipTo, if_pos rfl, if_pos hd, ih]
  | case5 d cs hd => rw [List.cons_append, List.cons_append, skipTo, if_pos rfl, if_neg hd]; rfl
  | case6 c d cs hc ih =>
    rw [List.cons_append, List.cons_append, skipTo, if_neg hc]
    exact ih

/-- A bracket behind digits is none of them. -/
theorem digits_snoc {p : Char → Bool} (hp : p ')' = false) (mk : List Char → Token) (cs : List Char) :
    (if ((cs ++ [')']).takeWhile p).isEmpty then none
      else some (mk ((cs ++ [')']).takeWhile p), (cs ++ [')']).dropWhile p)) =
    (if (cs.takeWhile p).isEmpty then none
      else some (mk (cs.takeWhile p), cs.dropWhile p)).map fun r => (r.1, r.2 ++ [')']) := by
  rw [dropWhile_snoc hp, takeWhile_snoc hp]
  split <;> rfl

/-- A bracket behind a token is no part of it. -/
theorem next_snoc (c : Char) (cs : List Char) :
    next c (cs ++ [')']) = (next c cs).map fun r => (r.1, r.2 ++ [')']) := by
  unfold next
  split
  · rfl
  split
  · rfl
  split
  · dsimp only
    rw [List.dropWhile_append, List.takeWhile_append]
    cases hd : cs.dropWhile (· != '|') with
    | nil =>
      simp only [List.isEmpty_nil, if_true]
      rfl
    | cons d rest =>
      have htake : (cs.takeWhile (· != '|')).length ≠ cs.length := fun hl => by
        have hall := (List.takeWhile_prefix (· != '|')).eq_of_length hl
        have := List.takeWhile_append_dropWhile (p := (· != '|')) (l := cs)
        rw [hall, hd] at this
        simp at this
      rw [if_neg htake]
      rfl
  split
  · rw [skipTo_snoc (by decide)]
    cases skipTo '"' true cs <;> rfl
  split
  · rw [dropWhile_snoc (by decide)]
    rfl
  split
  · cases cs with
    | nil => rfl
    | cons d cs =>
      rw [List.cons_append]
      by_cases hx : d = 'x'
      · subst hx
        exact digits_snoc (by decide) .hex cs
      by_cases hb : d = 'b'
      · subst hb
        exact digits_snoc (by decide) .bits cs
      · split <;> simp_all
  split
  · dsimp only
    rw [dropWhile_snoc (by decide), takeWhile_snoc (by decide)]
    cases hd : cs.dropWhile Char.isDigit with
    | nil => rfl
    | cons d rest =>
      by_cases hp : d = '.'
      · subst hp
        change some (Token.other, (rest ++ [')']).dropWhile Char.isDigit) = _
        rw [dropWhile_snoc (by decide)]
        rfl
      · rw [List.cons_append]
        split <;> simp_all
  split
  · rw [dropWhile_snoc (by decide), takeWhile_snoc (by decide)]
    rfl
  · rfl

theorem Lexes.snoc (h : Lexes cs ts b) :
    Lexes (cs ++ [')']) (if b then ts else ts ++ [.close]) b := by
  induction h with
  | nil => exact .token (by decide) (by decide) rfl .nil
  | space hs _ ih => exact .space hs ih
  | @line cs ts b hd _ ih =>
    have hsnoc : (cs ++ [')']).dropWhile (· != '\n') = cs.dropWhile (· != '\n') ++ [')'] := by
      rw [List.dropWhile_append, if_neg (by simpa using hd)]
    have hne : (cs ++ [')']).dropWhile (· != '\n') ≠ [] := by
      rw [hsnoc]
      exact List.append_ne_nil_of_right_ne_nil _ (List.cons_ne_nil _ _)
    rw [← hsnoc] at ih
    exact .line hne ih
  | @last cs hd =>
    have hsnoc : (cs ++ [')']).dropWhile (· != '\n') = [] := by
      rw [List.dropWhile_append, hd]
      rfl
    exact .last hsnoc
  | @token c cs rest t ts b hs hc hn _ ih =>
    have hcons : (if b then t :: ts else t :: ts ++ [.close]) =
        t :: if b then ts else ts ++ [.close] := by split <;> rfl
    rw [hcons]
    have hsnoc : next c (cs ++ [')']) = some (t, rest ++ [')']) := by rw [next_snoc, hn]; rfl
    exact .token hs hc hsnoc ih

/-- What stands in front of a bare formula. -/
theorem lexes_assert : Lexes ("(assert ".toList ++ cs) us b ↔
    ∃ ts, us = .open :: .symbol "assert" :: ts ∧ Lexes cs ts b := by
  have hopen : next '(' ("assert ".toList ++ cs) = some (.open, "assert ".toList ++ cs) := rfl
  have hassert : next 'a' ("ssert ".toList ++ cs) = some (.symbol "assert", ' ' :: cs) := by
    rfl
  constructor
  · intro h
    obtain ⟨_, rfl, hname⟩ := (lexes_of_next (by decide) (by decide) hopen).mp h
    obtain ⟨ts, rfl, hrest⟩ := (lexes_of_next (by decide) (by decide) hassert).mp hname
    rw [lexes_cons, if_pos (by decide)] at hrest
    exact ⟨ts, rfl, hrest⟩
  · rintro ⟨ts, rfl, h⟩
    exact .token (by decide) (by decide) hopen
      (.token (by decide) (by decide) hassert (.space (by decide) h))

/-- A text that begins as an assertion does begins with a bracket and a name that does. -/
theorem lexes_asserting (h : Lexes ("(assert".toList ++ cs) us b) :
    ∃ name ts, us = .open :: .symbol (String.ofList ("assert".toList ++ name)) :: ts := by
  have hopen : next '(' ("assert".toList ++ cs) = some (.open, "assert".toList ++ cs) := rfl
  have hname : next 'a' ("ssert".toList ++ cs) =
      some (.symbol (String.ofList ("assert".toList ++ cs.takeWhile isSymbolChar)),
        cs.dropWhile isSymbolChar) := rfl
  obtain ⟨_, rfl, hrest⟩ := (lexes_of_next (by decide) (by decide) hopen).mp h
  obtain ⟨ts, rfl, -⟩ := (lexes_of_next (by decide) (by decide) hname).mp hrest
  exact ⟨_, ts, rfl⟩

end

/-! ### Nesting -/

mutual

/-- The tokens of a datum. -/
def Datum.tokens : Datum → List Token
  | .atom t => [t]
  | .list xs => .open :: (Datum.tokensAll xs ++ [.close])

def Datum.tokensAll : List Datum → List Token
  | [] => []
  | x :: xs => x.tokens ++ Datum.tokensAll xs

end

/-- No bracket stands in a datum as a token of its own. -/
inductive Datum.Nested : Datum → Prop
  | atom {t : Token} : t ≠ .open → t ≠ .close → Nested (.atom t)
  | list {xs : List Datum} : (∀ x ∈ xs, Nested x) → Nested (.list xs)

section

open Datum

variable {x : Datum} {xs ys done : List Datum} {outer : List (List Datum)} {ts : List Token}

theorem tokensAll_append (xs ys : List Datum) : tokensAll (xs ++ ys) = tokensAll xs ++ tokensAll ys := by
  induction xs with
  | nil => rfl
  | cons x xs ih => rw [List.cons_append, tokensAll, tokensAll, ih, List.append_assoc]

theorem length_tokens_pos (x : Datum) : 0 < x.tokens.length := by
  cases x <;> simp [Datum.tokens]

theorem length_tokens_le (hx : x ∈ xs) : x.tokens.length ≤ (tokensAll xs).length := by
  induction xs with
  | nil => cases hx
  | cons y xs ih =>
    rw [tokensAll, List.length_append]
    rcases List.mem_cons.mp hx with rfl | hx
    · exact Nat.le_add_right _ _
    · exact Nat.le_trans (ih hx) (Nat.le_add_left _ _)

theorem nest_atom {t : Token} (ho : t ≠ .open) (hc : t ≠ .close) :
    nest outer done (t :: ts) = nest outer (.atom t :: done) ts := by
  cases t <;> first | rfl | exact absurd rfl ho | exact absurd rfl hc

mutual

/-- The tokens of a datum are read as that datum. -/
theorem nest_tokens {x : Datum} (hx : x.Nested) (outer : List (List Datum)) (done : List Datum)
    (ts : List Token) : nest outer done (x.tokens ++ ts) = nest outer (x :: done) ts := by
  cases hx with
  | atom ho hc => exact nest_atom ho hc
  | @list xs hxs =>
    have hin := nest_tokensAll hxs (done :: outer) [] (.close :: ts)
    rw [Datum.tokens, List.cons_append, List.append_assoc]
    rw [List.append_nil] at hin
    change nest (done :: outer) [] (tokensAll xs ++ .close :: ts) = _
    rw [hin, nest, List.reverse_reverse]

theorem nest_tokensAll {xs : List Datum} (hxs : ∀ x ∈ xs, x.Nested) (outer : List (List Datum))
    (done : List Datum) (ts : List Token) :
    nest outer done (tokensAll xs ++ ts) = nest outer (xs.reverse ++ done) ts := by
  cases xs with
  | nil => rfl
  | cons x xs =>
    obtain ⟨hx, hxs⟩ := List.forall_mem_cons.mp hxs
    rw [tokensAll, List.append_assoc, nest_tokens hx, nest_tokensAll hxs, List.reverse_cons,
      List.append_assoc]
    rfl

end

/-- The tokens behind which the nesting of further tokens goes on. -/
def front : List (List Datum) → List Datum → List Token
  | [], done => tokensAll done.reverse
  | before :: outer, done => front outer before ++ .open :: tokensAll done.reverse

theorem front_cons (outer : List (List Datum)) (x : Datum) (done : List Datum) :
    front outer (x :: done) = front outer done ++ x.tokens := by
  cases outer <;> simp [front, tokensAll_append, tokensAll]

theorem front_of_nest (hdone : ∀ x ∈ done, x.Nested) (houter : ∀ before ∈ outer, ∀ x ∈ before, x.Nested)
    (h : nest outer done ts = some ys) : (∀ y ∈ ys, y.Nested) ∧ tokensAll ys = front outer done ++ ts := by
  induction ts generalizing outer done with
  | nil =>
    rw [nest] at h
    split at h
    · rename_i ho
      cases h
      rw [List.isEmpty_iff.mp ho, List.append_nil, front]
      exact ⟨fun y hy => hdone y (List.mem_reverse.mp hy), rfl⟩
    · cases h
  | cons t ts ih =>
    by_cases ho : t = .open
    · subst ho
      obtain ⟨hys, heq⟩ := ih (List.forall_mem_nil _) (List.forall_mem_cons.mpr ⟨hdone, houter⟩) h
      refine ⟨hys, heq.trans ?_⟩
      rw [front, List.append_assoc]
      rfl
    by_cases hc : t = .close
    · subst hc
      cases outer with
      | nil => cases h
      | cons before outer =>
        obtain ⟨hbefore, houter⟩ := List.forall_mem_cons.mp houter
        have hlist : Datum.Nested (.list done.reverse) :=
          .list fun x hx => hdone x (List.mem_reverse.mp hx)
        obtain ⟨hys, heq⟩ := ih (List.forall_mem_cons.mpr ⟨hlist, hbefore⟩) houter h
        refine ⟨hys, heq.trans ?_⟩
        rw [front_cons, front, Datum.tokens]
        simp
    · rw [nest_atom ho hc] at h
      obtain ⟨hys, heq⟩ := ih (List.forall_mem_cons.mpr ⟨.atom ho hc, hdone⟩) houter h
      refine ⟨hys, heq.trans ?_⟩
      rw [front_cons, List.append_assoc]
      rfl

/-- Nesting gives the data whose tokens these are. -/
theorem nest_iff : nest [] [] ts = some xs ↔ (∀ x ∈ xs, x.Nested) ∧ ts = tokensAll xs := by
  constructor
  · intro h
    obtain ⟨hxs, heq⟩ := front_of_nest (List.forall_mem_nil _) (List.forall_mem_nil _) h
    exact ⟨hxs, heq.symm⟩
  · rintro ⟨hxs, rfl⟩
    have h := nest_tokensAll hxs [] [] []
    rw [List.append_nil, List.append_nil] at h
    rw [h, nest, List.reverse_reverse]
    rfl

theorem eq_list_of_tokens {name : String} (h : x.tokens = .open :: .symbol name :: ts)
    (hx : x.Nested) : ∃ args, x = .list (.atom (.symbol name) :: args) := by
  cases hx with
  | atom ho => exact absurd (List.cons.inj h).1 ho
  | @list xs _ =>
    rw [Datum.tokens, List.cons.injEq] at h
    rcases xs with _ | ⟨_ | _, xs⟩
    · cases h.2
    · cases h.2
      exact ⟨xs, rfl⟩
    · cases h.2

end

end Precond.Smt
