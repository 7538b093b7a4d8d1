import Precond.Policy.Basic
import Precond.Proofs.Run.Closed

/-! What a run reads, and what side rules ask for there. A run evaluates the right sides of its
definitions and the conditions of its jumps, each in the state at that point (`IR.Sub.Passes`). For
each part of such an expression a side rule may ask for a condition (`SideRule.Asks`), to be taken for
granted or to be established; a run is accepted as far as it is excused by what is taken for granted
(`Accepts`). -/

namespace Precond

open IR

/-! ### Conditions -/

/-- The regions of memory in which accesses are valid. -/
structure Regions where
  stack : Int × Int
  heap : Int × Int

/-- The word lies between the bounds, both included, which are taken modulo its width. -/
def between {w : Nat} (bounds : Int × Int) (x : BitVec w) : Bool :=
  (BitVec.ofInt w bounds.1).toNat ≤ x.toNat && x.toNat ≤ (BitVec.ofInt w bounds.2).toNat

/-- The first and the last byte of an access lie in the stack, or both in the heap. -/
def Regions.admits {w : Nat} (r : Regions) (first : BitVec w) (size : Int) : Bool :=
  let last := first + BitVec.ofInt w (size / 8 - 1)
  (between r.stack first && between r.stack last) || (between r.heap first && between r.heap last)

namespace IR

/-- The expression reads or writes so many bits at an address. -/
inductive Exp.Accesses : Access → Exp → Exp → Int → Prop
  | load : Accesses .load (.load mem addr endian size) addr size
  | store : Accesses .store (.store mem addr value endian size) addr size

theorem Exp.Accesses.unique {e a a' : Exp} (h : e.Accesses access a n) (h' : e.Accesses access a' n') :
    (a, n) = (a', n') := by
  cases h <;> cases h' <;> rfl

theorem Exp.Accesses.known {e : Exp} (h : e.Accesses access a n) (he : e.known) : a.known := by
  cases h with
  | load => exact (Bool.and_eq_true_iff.mp he).2
  | store => exact (Bool.and_eq_true_iff.mp (Bool.and_eq_true_iff.mp he).1).2

def BinOp.isDivision : BinOp → Bool
  | udiv | sdiv | umod | smod => true
  | _ => false

end IR

namespace SideRule

/-- A side rule that asks only for parts of the expression it is given. -/
def isLocal : SideRule → Bool
  | nonNull .. | validAccess .. | nonZeroDivisor => true
  | offsetRead .. | custom .. => false

/-- A side rule that takes a condition for granted, of an access. -/
def trusts : SideRule → Bool
  | nonNull _ .assume | validAccess _ .assume => true
  | _ => false

/-- What a rule asks of an expression in a state: a condition with a duty, true there or not. -/
inductive Asks (r : Regions) : SideRule → Store → Exp → Duty → Bool → Prop
  | nonNull {x : BitVec w} : e.Accesses access addr size → addr.Yields σ (.word x) →
      Asks r (nonNull access duty) σ e duty (x != 0#w)
  | validAccess {x : BitVec w} : e.Accesses access addr size → addr.Yields σ (.word x) →
      Asks r (validAccess access duty) σ e duty (r.admits x size)
  | nonZeroDivisor {x : BitVec w} : op.isDivision → divisor.Yields σ (.word x) →
      Asks r nonZeroDivisor σ (.bin op dividend divisor) .verify (x != 0#w)

theorem Asks.duty {r : Regions} {rule : SideRule} {σ : Store} {e : Exp} {b : Bool}
    (h : rule.Asks r σ e .assume b) : rule.trusts := by
  cases h <;> rfl

end SideRule

/-- What some of the rules asks of an expression. -/
def Asked (r : Regions) (rules : List SideRule) (σ : Store) (e : Exp) (d : Duty) (b : Bool) : Prop :=
  ∃ rule ∈ rules, rule.Asks r σ e d b

/-- What rules ask of an expression or of a part of it, each in the state in which it is evaluated. -/
def Demands (r : Regions) (rules : List SideRule) (σ : Store) (e : Exp) (d : Duty) (b : Bool) : Prop :=
  Exp.Somewhere (fun σ e => Asked r rules σ e d b) σ e

/-- Rules that take nothing for granted ask for conditions to establish only. -/
theorem Demands.verified {r : Regions} {rules : List SideRule} (hr : ∀ rule ∈ rules, ¬ rule.trusts)
    (σ : Store) (e : Exp) (b : Bool) : ¬ Demands r rules σ e .assume b :=
  Exp.not_somewhere fun _ _ ⟨rule, hrule, hasks⟩ => hr rule hrule hasks.duty

/-- Without rules nothing is asked for. -/
theorem not_demands_nil {r : Regions} (σ : Store) (e : Exp) (d : Duty) (b : Bool) :
    ¬ Demands r [] σ e d b :=
  Exp.not_somewhere fun _ _ ⟨_, hrule, _⟩ => List.not_mem_nil hrule

/-- The expression is a load from address zero. -/
def NullLoad (σ : Store) (e : Exp) : Prop :=
  ∃ addr n w, e.Accesses .load addr n ∧ addr.Yields σ (.word (0#w))

/-! ### Readings -/

/-- An expression with the state in which it is evaluated. -/
abbrev Reading := Store × Exp

namespace IR

/-- The condition of a jump is evaluated unless the jump is always taken. -/
def Jump.readings (σ : Store) (j : Jump) : List Reading :=
  if j.cond = Exp.always then [] else [(σ, j.cond)]

/-- What definitions read one after the other. -/
inductive Defines : List Def → Store → List Reading → Store → Prop
  | nil : Defines [] σ [] σ
  | cons : d.rhs.Yields σ x → Defines ds (Function.update σ d.lhs x) reads σ' →
      Defines (d :: ds) σ ((σ, d.rhs) :: reads) σ'

/-- What jumps read up to the one that is taken. -/
inductive Selects (σ : Store) : List Jump → List Reading → Option Jump → Prop
  | nil : Selects σ [] [] none
  | this : j.cond.Yields σ x → x.nonZero? = some true →
      Selects σ (j :: js) (j.readings σ) (some j)
  | next : j.cond.Yields σ x → x.nonZero? = some false → Selects σ js reads t →
      Selects σ (j :: js) (j.readings σ ++ reads) t

/-- What a block reads, and the way that control goes from it. An indirect jump and an interrupt have
none. -/
inductive Blk.Passes (b : Blk) : Option String → Store → List Reading → Option Way → Store → Prop
  | jump : Defines b.defs σ reads σ' → Selects σ' b.jumps reads' (some j) →
      b.Passes behind σ (reads ++ reads') j.way? σ'
  | next : Defines b.defs σ reads σ' → Selects σ' b.jumps reads' none →
      b.Passes (some t) σ (reads ++ reads') (some (.goto t)) σ'
  | last : Defines b.defs σ reads σ' → Selects σ' b.jumps reads' none →
      b.Passes none σ (reads ++ reads') (some .out) σ'

/-- What the run of a subroutine without calls reads from a block on, and the state in which it
returns. There is no such state if it leaves in another way. -/
inductive Sub.Passes (s : Sub) : String → Store → List Reading → Option Store → Prop
  | out : s.at? t = some (b, behind) → b.Passes behind σ reads (some .out) σ' →
      s.Passes t σ reads (some σ')
  | goto : s.at? t = some (b, behind) → b.Passes behind σ reads (some (.goto u)) σ' →
      s.Passes u σ' reads' o → s.Passes t σ (reads ++ reads') o
  | away : s.at? t = some (b, behind) → b.Passes behind σ reads none σ' → s.Passes t σ reads none
  | stray : s.at? t = none → s.Passes t σ [] none

/-- Whether readings are accepted that lead to `last`. A reading of which something does not hold that
is taken for granted excuses all that follows. -/
def Accepts (asks : Store → Exp → Duty → Bool → Prop) : List Reading → Prop → Prop
  | [], last => last
  | (σ, e) :: rest, last => asks σ e .assume false ∨ ¬ asks σ e .verify false ∧ Accepts asks rest last

variable {asks : Store → Exp → Duty → Bool → Prop} {s : Sub} {b : Blk} {j : Jump} {σ σ₁ σ₂ : Store}
  {reads reads₁ reads₂ : List Reading} {o o₁ o₂ : Option Store}

theorem accepts_append (reads₁ reads₂ : List Reading) (last : Prop) :
    Accepts asks (reads₁ ++ reads₂) last ↔ Accepts asks reads₁ (Accepts asks reads₂ last) := by
  induction reads₁ with
  | nil => exact Iff.rfl
  | cons r rest ih =>
    obtain ⟨σ, e⟩ := r
    exact or_congr_right (and_congr_right fun _ => ih)

theorem accepts_congr {p q : Prop} (reads : List Reading) (h : p ↔ q) :
    Accepts asks reads p ↔ Accepts asks reads q := by
  rw [propext h]

/-- Where nothing is asked for, all readings are accepted. -/
theorem accepts_unasked {last : Prop} (h : ∀ σ e d, ¬ asks σ e d false) (reads : List Reading) :
    Accepts asks reads last ↔ last := by
  induction reads with
  | nil => exact Iff.rfl
  | cons r rest ih =>
    obtain ⟨σ, e⟩ := r
    rw [Accepts, or_iff_right (h σ e .assume), and_iff_right (h σ e .verify), ih]

/-- Where nothing is taken for granted, all that is to be established holds of accepted readings. -/
theorem Accepts.verified {last : Prop} (hno : ∀ σ e, ¬ asks σ e .assume false)
    (h : Accepts asks reads last) : (∀ r ∈ reads, ¬ asks r.1 r.2 .verify false) ∧ last := by
  induction reads with
  | nil => exact ⟨nofun, h⟩
  | cons r rest ih =>
    obtain ⟨hr, hrest⟩ := h.resolve_left (hno _ _)
    obtain ⟨hall, hlast⟩ := ih hrest
    refine ⟨fun r' hr' => ?_, hlast⟩
    rcases List.mem_cons.mp hr' with rfl | hr'
    · exact hr
    · exact hall r' hr'

/-! ### The readings of a run -/

theorem Defines.unique {ds : List Def} (hk : ds.all (·.rhs.known)) (h : Defines ds σ reads₁ σ₁)
    (h' : Defines ds σ reads₂ σ₂) : reads₁ = reads₂ ∧ σ₁ = σ₂ := by
  induction h generalizing reads₂ with
  | nil =>
    cases h'
    exact ⟨rfl, rfl⟩
  | cons hx _ ih =>
    rw [List.all_cons, Bool.and_eq_true] at hk
    cases h' with
    | cons hx' h' =>
      cases hx.unique hk.1 hx'
      obtain ⟨rfl, rfl⟩ := ih hk.2 h'
      exact ⟨rfl, rfl⟩

theorem Selects.takes {js : List Jump} {t : Option Jump} (h : Selects σ js reads t) :
    Takes σ js t := by
  induction h with
  | nil => exact .nil
  | this hx hz => exact .this hx hz
  | next hx hz _ ih => exact .next hx hz ih

theorem Selects.unique {js : List Jump} {t₁ t₂ : Option Jump} (hk : js.all (·.cond.known))
    (h : Selects σ js reads₁ t₁) (h' : Selects σ js reads₂ t₂) : reads₁ = reads₂ ∧ t₁ = t₂ := by
  induction h generalizing reads₂ with
  | nil =>
    cases h'
    exact ⟨rfl, rfl⟩
  | this hx hz =>
    rw [List.all_cons, Bool.and_eq_true] at hk
    cases h' with
    | this => exact ⟨rfl, rfl⟩
    | next hx' hz' =>
      cases hx.unique hk.1 hx'
      cases hz.symm.trans hz'
  | next hx hz _ ih =>
    rw [List.all_cons, Bool.and_eq_true] at hk
    cases h' with
    | this hx' hz' =>
      cases hx.unique hk.1 hx'
      cases hz.symm.trans hz'
    | next _ _ h' =>
      obtain ⟨rfl, rfl⟩ := ih hk.2 h'
      exact ⟨rfl, rfl⟩

/-- Control goes from a block as the taken jump tells, and else to what is behind the block. -/
def Blk.way? (behind : Option String) : Option Jump → Option Way
  | some j => j.way?
  | none => some (behind.elim .out .goto)

theorem Blk.passes_iff {behind : Option String} {way : Option Way} :
    b.Passes behind σ reads way σ₁ ↔ ∃ reads₁ reads₂ t, reads = reads₁ ++ reads₂ ∧
      Defines b.defs σ reads₁ σ₁ ∧ Selects σ₁ b.jumps reads₂ t ∧ way = Blk.way? behind t := by
  constructor
  · rintro (⟨hd, hs⟩ | ⟨hd, hs⟩ | ⟨hd, hs⟩)
    · exact ⟨_, _, _, rfl, hd, hs, rfl⟩
    · exact ⟨_, _, _, rfl, hd, hs, rfl⟩
    · exact ⟨_, _, _, rfl, hd, hs, rfl⟩
  · rintro ⟨reads₁, reads₂, t, rfl, hd, hs, rfl⟩
    cases t with
    | some j => exact .jump hd hs
    | none =>
      cases behind with
      | some t => exact .next hd hs
      | none => exact .last hd hs

theorem Blk.Passes.unique {behind : Option String} {way₁ way₂ : Option Way} (hk : b.known)
    (h : b.Passes behind σ reads₁ way₁ σ₁) (h' : b.Passes behind σ reads₂ way₂ σ₂) :
    reads₁ = reads₂ ∧ way₁ = way₂ ∧ σ₁ = σ₂ := by
  rw [known, Bool.and_eq_true] at hk
  obtain ⟨_, _, _, rfl, hd, hs, rfl⟩ := passes_iff.mp h
  obtain ⟨_, _, _, rfl, hd', hs', rfl⟩ := passes_iff.mp h'
  obtain ⟨rfl, rfl⟩ := hd.unique hk.1 hd'
  obtain ⟨rfl, rfl⟩ := hs.unique hk.2 hs'
  exact ⟨rfl, rfl, rfl⟩

/-- How a run goes on after its first block. -/
theorem Sub.Passes.inv {t : String} {p : Blk × Option String} {way : Option Way} (hk : s.known)
    (hp : s.at? t = some p) (hb : p.1.Passes p.2 σ reads₁ way σ₁) (h : s.Passes t σ reads o) :
    match way with
    | some .out => reads = reads₁ ∧ o = some σ₁
    | some (.goto u) => ∃ rest, reads = reads₁ ++ rest ∧ s.Passes u σ₁ rest o
    | some (.call ..) => False
    | none => reads = reads₁ ∧ o = none := by
  have hknown : p.1.known := List.all_eq_true.mp hk _ (Sub.mem_of_at? hp).1
  cases h with
  | out hp' hb' =>
    cases hp.symm.trans hp'
    obtain ⟨rfl, rfl, rfl⟩ := hb.unique hknown hb'
    exact ⟨rfl, rfl⟩
  | goto hp' hb' h =>
    cases hp.symm.trans hp'
    obtain ⟨rfl, rfl, rfl⟩ := hb.unique hknown hb'
    exact ⟨_, rfl, h⟩
  | away hp' hb' =>
    cases hp.symm.trans hp'
    obtain ⟨rfl, rfl, rfl⟩ := hb.unique hknown hb'
    exact ⟨rfl, rfl⟩
  | stray hn => cases hp.symm.trans hn

/-- Without unknown expressions there is one run from a store. -/
theorem Sub.Passes.unique {t : String} (hk : s.known) (h : s.Passes t σ reads₁ o₁)
    (h' : s.Passes t σ reads₂ o₂) : reads₂ = reads₁ ∧ o₂ = o₁ := by
  induction h generalizing reads₂ with
  | out hp hb | away hp hb => exact h'.inv hk hp hb
  | goto hp hb _ ih =>
    obtain ⟨rest, rfl, hrest⟩ := h'.inv hk hp hb
    obtain ⟨rfl, rfl⟩ := ih hrest
    exact ⟨rfl, rfl⟩
  | stray hn =>
    cases h' with
    | out hp | goto hp | away hp => cases hn.symm.trans hp
    | stray => exact ⟨rfl, rfl⟩

/-- Where control goes on at blocks of the own subroutine only, it does so after each block. -/
theorem Blk.Passes.closed {way : Option Way} {behind : Option String} {t : String} (hs : s.closed)
    (hb : s.at? t = some (b, behind)) (h : b.Passes behind σ reads way σ₁) :
    ∃ w, way = some w ∧ ∀ x, w.next? = some x → (s.at? x).isSome := by
  cases h with
  | jump _ hj =>
    obtain ⟨w, hway, hnext⟩ := Sub.simple_jumps hs (Sub.mem_of_at? hb).1 hj.takes.mem
    exact ⟨w, hway, fun x hx => Sub.at?_isSome (List.contains_iff_mem.mp (hnext x hx))⟩
  | next =>
    refine ⟨_, rfl, fun x hx => ?_⟩
    cases hx
    exact Sub.at?_isSome (mem_of_follow (List.mem_reverse.mp (List.mem_of_find?_eq_some hb)))
  | last => exact ⟨_, rfl, nofun⟩

/-- Where control goes on at blocks of the own subroutine only, a run returns. -/
theorem Sub.Passes.returns {t : String} (hs : s.closed) (ht : (s.at? t).isSome)
    (h : s.Passes t σ reads o) : ∃ σ', o = some σ' := by
  induction h with
  | out => exact ⟨_, rfl⟩
  | goto hb hp _ ih =>
    obtain ⟨w, hw, hnext⟩ := Blk.Passes.closed hs hb hp
    cases hw
    exact ih (hnext _ rfl)
  | away hb hp =>
    obtain ⟨w, hw, -⟩ := Blk.Passes.closed hs hb hp
    cases hw
  | stray hn =>
    rw [hn] at ht
    cases ht

/-- The run of a subroutine from its entry, the only one there is, and what it reads on the way to
the state in which it returns. -/
structure Sub.Reads (s : Sub) (σ : Store) (reads : List Reading) (σ' : Store) : Prop where
  run : ∃ e, s.first? = some e ∧ s.Passes e σ reads (some σ')
  only {e : String} {reads' : List Reading} {o : Option Store} : s.first? = some e →
    s.Passes e σ reads' o → reads' = reads ∧ o = some σ'

end IR

end Precond
