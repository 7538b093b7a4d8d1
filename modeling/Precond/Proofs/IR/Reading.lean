import Mathlib.Data.List.Basic
import Mathlib.Data.List.Forall2
import Precond.IR.Reader
import Precond.Proofs.IR.Lets
import Precond.Text.Numeral

/-! Digits and numerals. A text of digits is a decimal numeral unless one of them is a lone digit or
they are too many (`decimal?_eq_none_iff`): no digit is a blank, a sign or a low line.

Reading expressions. A dictionary that is changed for the body of each binding and changed back
behind it is always the scope that would be passed down (`Exp.readSexp_follows`), and it is left as it
was found. Each variable of an expression that is read is the one that its name stands for at its place
(`Exp.Resolved`), so that free variables are those of the scope. What is not an expression has a fault
that says so, unless a binding gives a width in digits that are no numeral or the width of a literal
has no power of two (`Exp.ofSexp_ends`). -/

namespace Precond.Text

variable {c : Char} {cs : List Char} {s : String}

theorem trim_of_forall_not {p : Char → Bool} (h : ∀ c ∈ cs, p c = false) : trim p cs = cs := by
  have keep : ∀ ds : List Char, (∀ c ∈ ds, p c = false) → ds.dropWhile p = ds := fun ds hds => by
    cases ds with
    | nil => rfl
    | cons d ds => rw [List.dropWhile_cons, hds d List.mem_cons_self, if_neg Bool.false_ne_true]
  rw [trim, keep cs h, keep _ (by simpa using h), List.reverse_reverse]

/-- A lone digit is far from the characters that numerals are made of. -/
theorem lone_bounds (h : inRanges loneDigits c.toNat = true) : 0xb2 ≤ c.toNat ∧ isBlank c = false := by
  simp only [inRanges, loneDigits, List.any_cons, List.any_nil, Bool.or_false, Bool.or_eq_true,
    Bool.and_eq_true, decide_eq_true_eq] at h
  simp only [isBlank, Bool.or_eq_false_iff, Bool.and_eq_false_iff, decide_eq_false_iff_not,
    beq_eq_false_iff_ne]
  omega

theorem ne_of_lone {d : Char} (h : inRanges loneDigits c.toNat = true) (hd : d.toNat < 0xb2) :
    c ≠ d := by
  rintro rfl
  have := (lone_bounds h).1
  omega

theorem digitValue?_of_lone (h : inRanges loneDigits c.toNat = true) (base : Nat) :
    digitValue? base c = none := by
  have hc := (lone_bounds h).1
  have above : ∀ d : Char, d.toNat < 0xb2 → ¬ c ≤ d := fun d hd hle => by
    rw [Char.le_def, UInt32.le_iff_toNat_le] at hle
    exact absurd (Nat.le_trans hc hle) (by simpa using hd)
  have h9 := above '9' (by decide)
  have hz := above 'z' (by decide)
  have hZ := above 'Z' (by decide)
  simp [digitValue?, h9, hz, hZ]

/-- Digits are never blanks, signs or low lines, also in their ASCII form. -/
theorem foldDigit_of_isDigit (h : isDigit c = true) :
    isBlank (foldDigit c) = false ∧ foldDigit c ≠ '-' ∧ foldDigit c ≠ '+' ∧ foldDigit c ≠ '_' ∧
      digitValue? 10 (foldDigit c) = decimalValue? c := by
  unfold foldDigit
  cases hv : decimalValue? c with
  | some d =>
    have hd := decimalValue?_lt hv
    have all : ∀ d < 10, isBlank (Char.ofNat (48 + d)) = false ∧ Char.ofNat (48 + d) ≠ '-' ∧
        Char.ofNat (48 + d) ≠ '+' ∧ Char.ofNat (48 + d) ≠ '_' ∧
        digitValue? 10 (Char.ofNat (48 + d)) = some d := by decide
    exact all d hd
  | none =>
    have hl : inRanges loneDigits c.toNat = true := by simpa [isDigit, hv] using h
    exact ⟨(lone_bounds hl).2, ne_of_lone hl (by decide), ne_of_lone hl (by decide),
      ne_of_lone hl (by decide), digitValue?_of_lone hl 10⟩

theorem digitsFrom_eq_none_iff {acc : Nat} {o : Bool} (hne : o = true → cs ≠ [])
    (h : ∀ c ∈ cs, c ≠ '_') :
    digitsFrom 10 acc o cs = none ↔ ∃ c ∈ cs, digitValue? 10 c = none := by
  induction cs generalizing acc o with
  | nil =>
    have : o = false := by simpa using hne
    simp [digitsFrom, this]
  | cons c cs ih =>
    rw [digitsFrom, if_neg (h c List.mem_cons_self)]
    cases hv : digitValue? 10 c with
    | none => simp [hv]
    | some d =>
      dsimp only
      rw [ih (fun ho => absurd ho Bool.false_ne_true) fun c hc => h c (List.mem_cons_of_mem _ hc)]
      simp [hv]

/-- Digits make a numeral unless one of them is no decimal digit or they are too many. -/
theorem decimal?_eq_none_iff (hne : s.toList ≠ []) (hs : ∀ c ∈ s.toList, isDigit c = true) :
    decimal? s = none ↔
      (∃ c ∈ s.toList, decimalValue? c = none) ∨ Limits.numeralDigits < s.toList.length := by
  have hfold : ∀ c ∈ s.toList.map foldDigit, isBlank c = false ∧ c ≠ '-' ∧ c ≠ '+' ∧ c ≠ '_' := by
    rw [List.forall_mem_map]
    exact fun c hc => let ⟨hb, hm, hp, hl, _⟩ := foldDigit_of_isDigit (hs c hc); ⟨hb, hm, hp, hl⟩
  have hsign : splitSign (s.toList.map foldDigit) = (false, s.toList.map foldDigit) := by
    cases hm : s.toList.map foldDigit with
    | nil => rfl
    | cons d ds =>
      have hd := hfold d (by rw [hm]; exact List.mem_cons_self)
      rw [splitSign]
      · exact fun _ h => hd.2.1 (List.cons.inj h).1
      · exact fun _ h => hd.2.2.1 (List.cons.inj h).1
  have hlines : (s.toList.map foldDigit).filter (· ≠ '_') = s.toList.map foldDigit :=
    List.filter_eq_self.mpr fun c hc => by simpa using (hfold c hc).2.2.2
  have hdigits : digits? 10 (s.toList.map foldDigit) = none ↔
      ∃ c ∈ s.toList, decimalValue? c = none := by
    rw [digits?, digitsFrom_eq_none_iff (fun _ => by simpa using hne) fun c hc => (hfold c hc).2.2.2]
    simp only [List.mem_map, exists_exists_and_eq_and]
    exact exists_congr fun c => and_congr_right fun hc => by
      rw [(foldDigit_of_isDigit (hs c hc)).2.2.2.2]
  rw [decimal?, numeralChars, trim_of_forall_not fun c hc => (hfold c hc).1, hsign]
  simp only [Option.map_eq_none_iff, decimalDigits?, hlines, List.length_map]
  split
  · rename_i hlong
    exact ⟨fun _ => .inr hlong, fun _ => rfl⟩
  · rename_i hshort
    rw [hdigits]
    exact ⟨.inl, fun h => h.resolve_right hshort⟩

end Precond.Text

namespace Precond

namespace IR

/-! ### Dictionaries -/

section

variable {d s : Table String Var} {α β : Type}

/-- Every name stands for the same in two scopes. -/
def Alike (d s : Scope) : Prop := ∀ name, d.lookup name = s.lookup name

theorem Alike.bound (h : Alike d s) (v : Var) : Alike (Table.put d v.name v) ((v.name, v) :: s) := by
  intro name
  rw [List.lookup_cons]
  by_cases hn : name = v.name
  · rw [hn, Table.lookup_put_self, beq_self_eq_true]
  · rw [Table.lookup_put_of_ne _ _ hn, beq_false_of_ne hn]
    exact h name

theorem put_eq_append {k : String} {v : Var} (h : d.lookup k = none) :
    Table.put d k v = d ++ [(k, v)] := by
  induction d with
  | nil => rfl
  | cons e d ih =>
    obtain ⟨n, w⟩ := e
    rw [List.lookup_cons] at h
    split at h
    · cases h
    · rename_i hn
      have hne : n ≠ k := fun heq => by simp [heq] at hn
      rw [Table.put, if_neg hne, ih h]
      rfl

theorem put_put {k : String} {u v : Var} (h : d.lookup k = some v) :
    Table.put (Table.put d k u) k v = d := by
  induction d with
  | nil => cases h
  | cons e d ih =>
    obtain ⟨n, w⟩ := e
    rw [List.lookup_cons] at h
    by_cases hn : n = k
    · subst hn
      rw [beq_self_eq_true] at h
      cases h
      simp [Table.put]
    · rw [beq_false_of_ne (Ne.symm hn)] at h
      simp [Table.put, hn, ih h]

theorem without_append {k : String} {v : Var} (h : d.lookup k = none) :
    Table.without (d ++ [(k, v)]) k = d := by
  have hd : ∀ e ∈ d, e.1 ≠ k := fun e he heq => by
    have hnot := List.lookup_eq_none_iff.mp h e he
    simp [heq] at hnot
  rw [Table.without, List.filter_append, List.filter_eq_self.mpr (by simpa using hd)]
  simp

/-- A name that is given back what it stood for leaves no trace. -/
theorem giveBack_put (d : Table String Var) (v : Var) :
    ReadM.giveBack v.name (d.lookup v.name) (Table.put d v.name v) = d := by
  cases h : d.lookup v.name with
  | some u => exact put_put h
  | none => rw [ReadM.giveBack, put_eq_append h, without_append h]

/-- The end of an action in a dictionary. -/
def ReadM.endIn (d : Table String Var) :
    Except ExpFault α → EStateM.Result ExpFault (Table String Var) α
  | .ok a => .ok a d
  | .error f => .error f d

/-- An action with a dictionary gives what a reader gives in the same scope, and leaves the dictionary
as it is. -/
structure Follows (act : ReadM α) (read : Scope → Except ExpFault α) : Prop where
  run {d s : Scope} : Alike d s → act d = ReadM.endIn d (read s)

namespace Follows

theorem pure (a : α) : Follows (Pure.pure a) fun _ => .ok a := ⟨fun _ => rfl⟩

theorem throw (f : ExpFault) : Follows (MonadExcept.throw f : ReadM α) fun _ => .error f :=
  ⟨fun _ => rfl⟩

theorem lift (x : Except ExpFault α) : Follows (liftM x : ReadM α) fun _ => x := by
  refine ⟨fun _ => ?_⟩
  cases x <;> rfl

theorem bind {x : ReadM α} {k : α → ReadM β} {read : Scope → Except ExpFault α}
    {next : α → Scope → Except ExpFault β} (hx : Follows x read) (hk : ∀ a, Follows (k a) (next a)) :
    Follows (x >>= k) fun s => read s >>= fun a => next a s := by
  refine ⟨fun {d s} h => ?_⟩
  rw [show (x >>= k) d = EStateM.bind x k d from rfl, EStateM.bind, hx.run h]
  cases read s with
  | ok a => exact (hk a).run h
  | error f => rfl

/-- The body of a binding is read with the dictionary changed. -/
theorem binding {act : ReadM α} {read : Scope → Except ExpFault α} (h : Follows act read) (v : Var) :
    Follows (ReadM.binding v act) fun s => read ((v.name, v) :: s) := by
  refine ⟨fun {d s} hds => ?_⟩
  change ReadM.restoring (ReadM.giveBack v.name (d.lookup v.name)) act (Table.put d v.name v) = _
  rw [ReadM.restoring, h.run (hds.bound v)]
  cases read ((v.name, v) :: s) with
  | ok a => exact congrArg _ (giveBack_put d v)
  | error f => exact congrArg _ (giveBack_put d v)

theorem atom (token : String) : Follows (ReadM.atom token) (Reader.atom · token) := by
  refine ⟨fun {d s} h => ?_⟩
  have hatom : Reader.atom d token = Reader.atom s token := by
    rw [Reader.atom, Reader.atom, h token]
  change (liftM (Reader.atom d token) : ReadM Exp) d = _
  rw [hatom]
  exact (lift _).run h

end Follows

/-- The operands of a form, read with a dictionary and in a scope. -/
abbrev Paired (ps : List (Sexp × ReadM Exp)) (qs : List (Sexp × Reader.Read)) : Prop :=
  List.Forall₂ (fun p q => p.1 = q.1 ∧ Follows p.2 q.2) ps qs

open Reader in
theorem build_follows (f : Form) {ps : List (Sexp × ReadM Exp)} {qs : List (Sexp × Read)}
    (h : Paired ps qs) (hlen : ps.length = f.arity) :
    Follows (ReadM.build f ps) fun s => Reader.build s f qs := by
  cases f with
  | bin op | concat =>
    obtain _ | ⟨⟨-, hl⟩, _ | ⟨⟨-, hr⟩, _ | _⟩⟩ := h <;> try cases hlen
    exact hl.bind fun _ => hr.bind fun _ => .pure _
  | un op =>
    obtain _ | ⟨⟨-, hx⟩, _ | _⟩ := h <;> try cases hlen
    exact hx.bind fun _ => .pure _
  | load =>
    obtain _ | ⟨⟨-, hm⟩, _ | ⟨⟨-, ha⟩, _ | ⟨⟨he, -⟩, _ | ⟨⟨hn, -⟩, _ | _⟩⟩⟩⟩ := h <;> try cases hlen
    rw [ReadM.build, he, hn]
    exact hm.bind fun _ => ha.bind fun _ => (Follows.lift _).bind fun _ => (Follows.lift _).bind fun _ =>
      .pure _
  | store =>
    obtain _ | ⟨⟨-, hm⟩, _ | ⟨⟨-, ha⟩, _ | ⟨⟨-, hv⟩, _ | ⟨⟨he, -⟩, _ | ⟨⟨hn, -⟩, _ | _⟩⟩⟩⟩⟩ := h <;>
      try cases hlen
    rw [ReadM.build, he, hn]
    exact hm.bind fun _ => ha.bind fun _ => hv.bind fun _ => (Follows.lift _).bind fun _ =>
      (Follows.lift _).bind fun _ => .pure _
  | cast =>
    obtain _ | ⟨⟨hk, -⟩, _ | ⟨⟨hw, -⟩, _ | ⟨⟨-, hx⟩, _ | _⟩⟩⟩ := h <;> try cases hlen
    rw [ReadM.build, hk, hw]
    refine (Follows.lift _).bind fun kind => ?_
    cases CastKind.all.find? (·.toText == kind)
    case some => exact (Follows.lift _).bind fun _ => hx.bind fun _ => .pure _
    case none => exact .throw _
  | ite =>
    obtain _ | ⟨⟨-, hc⟩, _ | ⟨⟨-, hy⟩, _ | ⟨⟨-, hn⟩, _ | _⟩⟩⟩ := h <;> try cases hlen
    exact hc.bind fun _ => hy.bind fun _ => hn.bind fun _ => .pure _
  | extract =>
    obtain _ | ⟨⟨hhi, -⟩, _ | ⟨⟨hlo, -⟩, _ | ⟨⟨-, hx⟩, _ | _⟩⟩⟩ := h <;> try cases hlen
    rw [ReadM.build, hhi, hlo]
    exact (Follows.lift _).bind fun _ => (Follows.lift _).bind fun _ => hx.bind fun _ => .pure _
  | unknown =>
    obtain _ | ⟨⟨hd, -⟩, _ | ⟨⟨hw, -⟩, _ | _⟩⟩ := h <;> try cases hlen
    rw [ReadM.build, hd, hw]
    exact (Follows.lift _).bind fun _ => (Follows.lift _).bind fun _ => .pure _
  | letIn =>
    obtain _ | ⟨⟨hv, -⟩, _ | ⟨⟨-, hx⟩, _ | ⟨⟨-, hb⟩, _ | _⟩⟩⟩ := h <;> try cases hlen
    rw [ReadM.build, hv]
    exact (Follows.lift _).bind fun v => hx.bind fun _ => (hb.binding v).bind fun _ => .pure _

open Reader in
theorem form_follows (head : Sexp) {ps : List (Sexp × ReadM Exp)} {qs : List (Sexp × Read)}
    (h : Paired ps qs) : Follows (ReadM.form head ps) fun s => Reader.form s head qs := by
  refine (Follows.lift _).bind fun name => ?_
  cases forms.lookup name with
  | none => exact .throw _
  | some f =>
    dsimp only
    rw [← h.length_eq]
    split
    · exact .throw _
    · rename_i hlen
      exact build_follows f h (not_not.mp hlen)

mutual

/-- Reading with a dictionary is reading in the scope that is passed down. -/
theorem Exp.readSexp_follows (x : Sexp) : Follows (Exp.readSexp x) (Exp.ofSexp x) := by
  cases x with
  | symbol token => exact .atom token
  | list xs =>
    cases xs with
    | nil => exact .throw _
    | cons head operands => exact form_follows head (Exp.readSexps_follows operands)
  | int | float | text | bracket | quoted => exact .throw _

theorem Exp.readSexps_follows (xs : List Sexp) : Paired (Exp.readSexps xs) (Exp.readers xs) := by
  cases xs with
  | nil => exact .nil
  | cons x xs => exact .cons ⟨rfl, Exp.readSexp_follows x⟩ (Exp.readSexps_follows xs)

end

theorem Exp.readSexp_eq (x : Sexp) (d : Scope) :
    Exp.readSexp x d = ReadM.endIn d (Exp.ofSexp x d) := (Exp.readSexp_follows x).run fun _ => rfl

theorem Exp.readText_eq (scope : Scope) (text : String) :
    Exp.readText scope text = Exp.ofText scope text := by
  unfold Exp.readText Exp.ofText
  cases Sexp.ofText? text with
  | none => rfl
  | some x =>
    dsimp only
    rw [Exp.readSexp_eq]
    cases Exp.ofSexp x scope <;> rfl

end

end IR

/-! ### How a computation ends -/

section

variable {ε α β : Type} {P P' : α → Prop} {Q : β → Prop} {F F' : ε → Prop}

/-- A computation ends in a value of one kind or in a fault of another. -/
def EndsIn (P : α → Prop) (F : ε → Prop) : Except ε α → Prop
  | .ok a => P a
  | .error f => F f

namespace EndsIn

theorem mono {x : Except ε α} (h : EndsIn P F x) (hP : ∀ a, P a → P' a) (hF : ∀ f, F f → F' f) :
    EndsIn P' F' x := by
  cases x with
  | ok a => exact hP a h
  | error f => exact hF f h

theorem bind {x : Except ε α} {k : α → Except ε β} (hx : EndsIn P F x) (hk : ∀ a, P a → EndsIn Q F (k a)) :
    EndsIn Q F (x >>= k) := by
  cases x with
  | ok a => exact hk a hx
  | error f => exact hx

theorem of_ok {x : Except ε α} {a : α} (h : EndsIn P F x) (hx : x = .ok a) : P a := by
  subst hx
  exact h

end EndsIn

end

namespace IR

/-! ### What names stand for -/

/-- Each variable is the one that its name stands for at its place. A binding counts in its body. -/
def Exp.Resolved (s : Scope) : Exp → Prop
  | var v => s.lookup v.name = some v
  | lit _ | unknown .. => True
  | load m a _ _ => m.Resolved s ∧ a.Resolved s
  | store m a v _ _ => m.Resolved s ∧ a.Resolved s ∧ v.Resolved s
  | bin _ l r | concat l r => l.Resolved s ∧ r.Resolved s
  | un _ x | cast _ _ x | extract _ _ x => x.Resolved s
  | ite c y n => c.Resolved s ∧ y.Resolved s ∧ n.Resolved s
  | letIn v x b => x.Resolved s ∧ b.Resolved ((v.name, v) :: s)

theorem Exp.resolved_iff {s : Scope} {e : Exp} (hvar : e.kind ≠ .var) (hlet : e.kind ≠ .letIn) :
    e.Resolved s ↔ ∀ c ∈ e.children, c.Resolved s := by
  cases e <;> simp_all [Resolved, children, kind]

/-- A free variable is the one that its name stands for outside. -/
theorem Exp.Resolved.lookup {s : Scope} {e : Exp} {u : Var} (h : e.Resolved s) (hu : u ∈ e.freeVars) :
    s.lookup u.name = some u := by
  induction e using Exp.induct_letIn generalizing s with
  | var v =>
    rw [freeVars, List.mem_singleton] at hu
    subst hu
    exact h
  | letIn v x b ihx ihb =>
    rcases mem_freeVars_letIn.mp hu with hx | ⟨hb, huv⟩
    · exact ihx h.1 hx
    · have hbody := ihb h.2 hb
      rw [List.lookup_cons] at hbody
      -- the bound name stands for the bound variable, which is not free
      by_cases hname : u.name = v.name
      · rw [hname, beq_self_eq_true] at hbody
        exact absurd (Option.some.inj hbody).symm huv
      · rwa [beq_false_of_ne hname] at hbody
  | node e hvar hlet ih =>
    obtain ⟨c, hc, hu⟩ := (mem_freeVars hvar hlet).mp hu
    exact ih c hc ((resolved_iff hvar hlet).mp h c hc) hu

/-- Every name stands for a variable of that name. -/
def Scope.Keyed (s : Scope) : Prop := ∀ name v, s.lookup name = some v → v.name = name

theorem Scope.Keyed.bound {s : Scope} (h : s.Keyed) (v : Var) : Scope.Keyed ((v.name, v) :: s) := by
  intro name u hu
  rw [List.lookup_cons] at hu
  split at hu
  · rename_i hname
    cases hu
    exact (eq_of_beq hname).symm
  · exact h name u hu

end IR

/-! ### What is no expression -/

/-- A datum is the other one or lies within an item of it. -/
inductive Sexp.Within (y : Sexp) : Sexp → Prop
  | self : Within y y
  | item {x : Sexp} {xs : List Sexp} : x ∈ xs → Within y x → Within y (.list xs)

/-- A name whose width is given by digits that are no numeral: one of them is not decimal, or they are
too many. -/
def Sexp.BadWidth (x : Sexp) : Prop :=
  ∃ token width, x = .symbol token ∧ (IR.splitColon token).2 = some width ∧ width.toList ≠ [] ∧
    (∀ c ∈ width.toList, Text.isDigit c = true) ∧
      ((∃ c ∈ width.toList, Text.decimalValue? c = none) ∨
        Limits.numeralDigits < width.toList.length)

/-- A local binding of such a name. -/
def Sexp.BadBinding (x : Sexp) : Prop :=
  ∃ name value body, x = .list [.symbol "let", name, value, body] ∧ name.BadWidth

/-- A literal of a width whose power of two has too many digits, or no room. -/
def Sexp.WideLiteral (x : Sexp) (f : ExpFault) : Prop :=
  ∃ token value width v w, x = .symbol token ∧ IR.splitColon token = (value, some width) ∧
    Text.integer? value = some v ∧ Text.decimal? width = some (.ofNat w) ∧
      IR.Reader.powerFault? w = some f

/-- A datum that is not reported as no expression. -/
def Sexp.Escapes (x : Sexp) (f : ExpFault) : Prop :=
  f = .badWidth ∧ x.BadBinding ∨ x.WideLiteral f

/-- What escapes has a fault that is not reported. -/
theorem Sexp.Escapes.bare {x : Sexp} {f : ExpFault} (h : x.Escapes f) : ∃ g, f.bare? = some g := by
  obtain ⟨rfl, -⟩ | ⟨_, _, _, _, w, -, -, -, -, hf⟩ := h
  · exact ⟨_, rfl⟩
  · unfold IR.Reader.powerFault? at hf
    split at hf
    · cases hf
      exact ⟨_, rfl⟩
    · split at hf <;> cases hf
      exact ⟨_, rfl⟩

/-- A fault whose message says what is wrong. -/
def ExpFault.Named (f : ExpFault) : Prop := f ≠ .unreadable ∧ f.bare? = none

/-- The fault of a datum is a named one unless something within the datum escapes. -/
def ExpFault.Tells (x : Sexp) (f : ExpFault) : Prop :=
  f.Named ∨ ∃ y : Sexp, y.Within x ∧ y.Escapes f

theorem ExpFault.noExpression_tells (x : Sexp) (found : String) : (noExpression found).Tells x :=
  .inl ⟨nofun, rfl⟩

theorem ExpFault.Tells.item {f : ExpFault} {x : Sexp} {xs : List Sexp} (h : f.Tells x) (hx : x ∈ xs) :
    f.Tells (.list xs) :=
  h.imp_right fun ⟨y, hy, hescapes⟩ => ⟨y, .item hx hy, hescapes⟩

namespace IR

open Reader

section

variable {s : Scope} {F : ExpFault → Prop} {qs : List (Sexp × Read)}

theorem symbol_ends (x : Sexp) : EndsIn (fun name => x = .symbol name) ExpFault.Named (symbol x) := by
  cases x with
  | symbol name => exact rfl
  | _ => exact ⟨nofun, rfl⟩

theorem integer_ends (x : Sexp) : EndsIn (fun _ => True) ExpFault.Named (integer x) := by
  cases x with
  | int i => trivial
  | symbol name =>
    rw [integer]
    cases Text.integer? name with
    | some i => trivial
    | none => exact ⟨nofun, rfl⟩
  | _ => exact ⟨nofun, rfl⟩

theorem endian_ends (x : Sexp) : EndsIn (fun _ => True) ExpFault.Named (endian x) := by
  refine (symbol_ends x).bind fun token _ => ?_
  split
  · trivial
  · split
    · trivial
    · exact ⟨nofun, rfl⟩

theorem typedName_ends (x : Sexp) :
    EndsIn (fun _ => True) (fun f => f.Named ∨ f = .badWidth ∧ x.BadWidth) (typedName x) := by
  refine ((symbol_ends x).mono (fun _ h => h) fun _ => .inl).bind fun token hx => ?_
  rcases hsplit : splitColon token with ⟨name, _ | width⟩
  · exact .inl ⟨nofun, rfl⟩
  · dsimp only [Option.getD_some]
    split
    · exact .inl ⟨nofun, rfl⟩
    · rename_i hdigits
      simp only [Bool.or_eq_true, Bool.not_eq_true', not_or, Bool.not_eq_false, List.all_eq_true,
        String.isEmpty_iff] at hdigits
      have hne : width.toList ≠ [] := by simpa using hdigits.1
      split
      · trivial
      · rename_i hdec
        have hbad := (Text.decimal?_eq_none_iff hne hdigits.2).mp hdec
        exact .inr ⟨rfl, token, width, hx, by rw [hsplit], hne, hdigits.2, hbad⟩

/-- Digits are taken for a width also where they have no value. -/
theorem typedName_of_badWidth {x : Sexp} (h : x.BadWidth) : typedName x = .error .badWidth := by
  obtain ⟨token, width, rfl, hw, hne, hdigits, hbad⟩ := h
  have hdec := (Text.decimal?_eq_none_iff hne hdigits).mpr hbad
  rcases hsplit : splitColon token with ⟨name, w⟩
  rw [hsplit] at hw
  subst hw
  have hempty : width ≠ "" := fun h => hne (by simp [h])
  have htest : (width.isEmpty || !width.toList.all Text.isDigit) = false := by
    simpa [hempty] using hdigits
  simp only [typedName, symbol, bind, Except.bind, hsplit, Option.getD_some, htest, hdec]
  rfl

theorem atom_ends (s : Scope) (token : String) :
    EndsIn (fun e => s.Keyed → e.Resolved s) (ExpFault.Tells (.symbol token)) (atom s token) := by
  unfold atom
  split
  · rename_i value width hsplit
    unfold literal
    split
    · rename_i v w hv hw
      split
      · rename_i f hf
        exact .inr ⟨_, .self, .inr ⟨token, value, width, v, w, rfl, hsplit, hv, hw, hf⟩⟩
      · exact fun _ => trivial
    · exact .inl ⟨nofun, rfl⟩
  · split
    · rename_i v hv
      intro hs
      rw [← hs _ _ hv] at hv
      exact hv
    · exact .inl ⟨nofun, rfl⟩

/-- A literal without a power of two has its fault, and nothing is said. -/
theorem atom_of_wideLiteral {x : Sexp} {f : ExpFault} (h : x.WideLiteral f) (s : Scope) :
    Exp.ofSexp x s = .error f := by
  obtain ⟨token, value, width, v, w, rfl, hsplit, hv, hw, hf⟩ := h
  simp only [Exp.ofSexp, atom, hsplit, literal, hv, hw, hf]

/-- The operands of a form end in expressions of the scope, or in faults of one kind. -/
def OperandsEnd (F : ExpFault → Prop) (qs : List (Sexp × Read)) : Prop :=
  ∀ q ∈ qs, ∀ s : Scope, EndsIn (fun e => s.Keyed → e.Resolved s) F (q.2 s)

theorem build_ends {f : Form} (hF : ∀ g, ExpFault.Named g → F g) (hlen : qs.length = f.arity)
    (hlet : f = .letIn → ∀ q ∈ qs.head?, q.1.BadWidth → F .badWidth) (hq : OperandsEnd F qs) :
    EndsIn (fun e => s.Keyed → e.Resolved s) F (Reader.build s f qs) := by
  have hint (x : Sexp) : EndsIn (fun _ => True) F (integer x) := (integer_ends x).mono (fun _ h => h) hF
  have hend (x : Sexp) : EndsIn (fun _ => True) F (endian x) := (endian_ends x).mono (fun _ h => h) hF
  have hsym (x : Sexp) : EndsIn (fun name => x = .symbol name) F (symbol x) :=
    (symbol_ends x).mono (fun _ h => h) hF
  cases f with
  | bin op | concat =>
    obtain _ | ⟨l, _ | ⟨r, _ | _⟩⟩ := qs <;> try cases hlen
    obtain ⟨hl, hr, -⟩ : _ ∧ _ ∧ _ := by simpa only [OperandsEnd, List.forall_mem_cons] using hq
    exact (hl s).bind fun _ hl => (hr s).bind fun _ hr hs => ⟨hl hs, hr hs⟩
  | un op =>
    obtain _ | ⟨x, _ | _⟩ := qs <;> try cases hlen
    obtain ⟨hx, -⟩ : _ ∧ _ := by simpa only [OperandsEnd, List.forall_mem_cons] using hq
    exact (hx s).bind fun _ hx => hx
  | load =>
    obtain _ | ⟨m, _ | ⟨a, _ | ⟨e, _ | ⟨n, _ | _⟩⟩⟩⟩ := qs <;> try cases hlen
    obtain ⟨hm, ha, -⟩ : _ ∧ _ ∧ _ := by simpa only [OperandsEnd, List.forall_mem_cons] using hq
    exact (hm s).bind fun _ hm => (ha s).bind fun _ ha => (hend _).bind fun _ _ => (hint _).bind
      fun _ _ hs => ⟨hm hs, ha hs⟩
  | store =>
    obtain _ | ⟨m, _ | ⟨a, _ | ⟨v, _ | ⟨e, _ | ⟨n, _ | _⟩⟩⟩⟩⟩ := qs <;> try cases hlen
    obtain ⟨hm, ha, hv, -⟩ : _ ∧ _ ∧ _ ∧ _ := by
      simpa only [OperandsEnd, List.forall_mem_cons] using hq
    exact (hm s).bind fun _ hm => (ha s).bind fun _ ha => (hv s).bind fun _ hv =>
      (hend _).bind fun _ _ => (hint _).bind fun _ _ hs => ⟨hm hs, ha hs, hv hs⟩
  | cast =>
    obtain _ | ⟨k, _ | ⟨w, _ | ⟨x, _ | _⟩⟩⟩ := qs <;> try cases hlen
    obtain ⟨-, -, hx, -⟩ : _ ∧ _ ∧ _ ∧ _ := by
      simpa only [OperandsEnd, List.forall_mem_cons] using hq
    refine (hsym k.1).bind fun kind _ => ?_
    cases CastKind.all.find? (·.toText == kind)
    case some => exact (hint _).bind fun _ _ => (hx s).bind fun _ hx => hx
    case none => exact hF _ ⟨nofun, rfl⟩
  | ite =>
    obtain _ | ⟨c, _ | ⟨y, _ | ⟨n, _ | _⟩⟩⟩ := qs <;> try cases hlen
    obtain ⟨hc, hy, hn, -⟩ : _ ∧ _ ∧ _ ∧ _ := by
      simpa only [OperandsEnd, List.forall_mem_cons] using hq
    exact (hc s).bind fun _ hc => (hy s).bind fun _ hy => (hn s).bind fun _ hn hs =>
      ⟨hc hs, hy hs, hn hs⟩
  | extract =>
    obtain _ | ⟨hi, _ | ⟨lo, _ | ⟨x, _ | _⟩⟩⟩ := qs <;> try cases hlen
    obtain ⟨-, -, hx, -⟩ : _ ∧ _ ∧ _ ∧ _ := by
      simpa only [OperandsEnd, List.forall_mem_cons] using hq
    exact (hint _).bind fun _ _ => (hint _).bind fun _ _ => (hx s).bind fun _ hx => hx
  | unknown =>
    obtain _ | ⟨d, _ | ⟨w, _ | _⟩⟩ := qs <;> try cases hlen
    exact (hsym _).bind fun _ _ => (hint _).bind fun _ _ _ => trivial
  | letIn =>
    obtain _ | ⟨name, _ | ⟨x, _ | ⟨b, _ | _⟩⟩⟩ := qs <;> try cases hlen
    obtain ⟨-, hx, hb, -⟩ : _ ∧ _ ∧ _ ∧ _ := by
      simpa only [OperandsEnd, List.forall_mem_cons] using hq
    have hname : EndsIn (fun _ => True) F (typedName name.1) :=
      (typedName_ends name.1).mono (fun _ h => h) fun g hg =>
        hg.elim (hF g) fun ⟨hbad, hwidth⟩ => hbad ▸ hlet rfl name rfl hwidth
    exact hname.bind fun v _ => (hx s).bind fun _ hx => (hb _).bind fun _ hb hs =>
      ⟨hx hs, hb (hs.bound v)⟩

theorem eq_let_of_lookup {name : String} (h : forms.lookup name = some .letIn) : name = "let" := by
  obtain ⟨_, _, hforms, -⟩ := List.lookup_eq_some_iff.mp h
  have hmem : (name, Form.letIn) ∈ forms := by
    rw [hforms]
    exact List.mem_append_right _ List.mem_cons_self
  simpa [forms] using hmem

end

theorem Exp.map_readers (xs : List Sexp) : (Exp.readers xs).map (·.1) = xs := by
  induction xs with
  | nil => rfl
  | cons x xs ih => rw [readers, List.map_cons, ih]

theorem form_ends {s : Scope} {head : Sexp} {xs : List Sexp}
    (hq : OperandsEnd (ExpFault.Tells (.list (head :: xs))) (Exp.readers xs)) :
    EndsIn (fun e => s.Keyed → e.Resolved s) (ExpFault.Tells (.list (head :: xs)))
      (Reader.form s head (Exp.readers xs)) := by
  have hF (f : ExpFault) (hf : f.Named) : f.Tells (.list (head :: xs)) := .inl hf
  refine ((symbol_ends head).mono (fun _ h => h) hF).bind fun name hhead => ?_
  cases hl : forms.lookup name with
  | none => exact hF _ ⟨nofun, rfl⟩
  | some f =>
    dsimp only
    split
    · exact hF _ ⟨nofun, rfl⟩
    · rename_i hlen
      have hlen := not_not.mp hlen
      refine build_ends hF hlen (fun hf q hfirst hbad => .inr ?_) hq
      -- the datum itself is the binding
      subst hf
      refine ⟨_, .self, .inl ⟨rfl, ?_⟩⟩
      have hmap := Exp.map_readers xs
      rcases hr : Exp.readers xs with _ | ⟨x, _ | ⟨y, _ | ⟨z, _ | _⟩⟩⟩ <;> rw [hr] at hlen hfirst hmap <;>
        try cases hlen
      cases hfirst
      exact ⟨_, _, _, by rw [← hmap, hhead, eq_let_of_lookup hl]; rfl, hbad⟩

mutual

/-- A datum is an expression whose variables are those of the scope, or has a fault that tells what is
wrong with it. -/
theorem Exp.ofSexp_ends (x : Sexp) (s : Scope) :
    EndsIn (fun e => s.Keyed → e.Resolved s) (ExpFault.Tells x) (Exp.ofSexp x s) := by
  cases x with
  | symbol token => exact atom_ends s token
  | list xs =>
    cases xs with
    | nil => exact ExpFault.noExpression_tells ..
    | cons head operands =>
      refine form_ends fun q hq s => ?_
      obtain ⟨y, hy, hends⟩ := Exp.readers_end operands q hq
      exact (hends s).mono (fun _ h => h) fun f hf => hf.item (List.mem_cons_of_mem _ hy)
  | int | float | text | bracket | quoted => exact ExpFault.noExpression_tells ..

theorem Exp.readers_end (xs : List Sexp) : ∀ q ∈ Exp.readers xs, ∃ x ∈ xs, ∀ s : Scope,
    EndsIn (fun e => s.Keyed → e.Resolved s) (ExpFault.Tells x) (q.2 s) := by
  cases xs with
  | nil => exact nofun
  | cons x xs =>
    refine List.forall_mem_cons.mpr ⟨⟨x, List.mem_cons_self, Exp.ofSexp_ends x⟩, fun q hq => ?_⟩
    obtain ⟨y, hy, hends⟩ := Exp.readers_end xs q hq
    exact ⟨y, List.mem_cons_of_mem _ hy, hends⟩

end

/-- What escapes is no expression, and its fault says nothing. -/
theorem Exp.ofSexp_of_escapes {x : Sexp} {f : ExpFault} (h : x.Escapes f) (s : Scope) :
    Exp.ofSexp x s = .error f := by
  obtain ⟨rfl, name, value, body, rfl, hbad⟩ | hwide := h
  · have hlet : forms.lookup "let" = some .letIn := rfl
    simp only [ofSexp, Reader.form, symbol, bind, Except.bind, hlet, readers, Reader.build,
      typedName_of_badWidth hbad]
    rfl
  · exact atom_of_wideLiteral hwide s

end IR

end Precond
