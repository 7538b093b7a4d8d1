import Mathlib.Logic.Relation
import Precond.IR.Program
import Precond.Proofs.Run.Exp

/-! Runs of subroutines. The elements of a block are executed in order: definitions assign, and the
first jump whose condition is not zero is taken; if there is none, control passes to the block
behind, or leaves the subroutine at its last block. A call runs the callee on the same variables and
goes on at its return label, or, without one, returns to where the subroutine itself was called. A
run strays when it goes on at what is no block of the subroutine. Without unknown expressions there
is one run from a store at most (`Runs.unique`). -/

namespace Precond.IR

open Relation

/-- Where control goes from a block. -/
inductive Way
  | goto (tid : String)
  | out
  | call (callee : String) (back : Option String)
  deriving DecidableEq, Repr

/-- The name at which control goes on in the subroutine. -/
def Way.next? : Way → Option String
  | .goto t | .call _ (some t) => some t
  | .out | .call _ none => none

/-- The way of a taken jump; interrupts and computed targets have none. -/
def Jump.way? (j : Jump) : Option Way :=
  match j.kind with
  | .goto (.direct t) => some (.goto t)
  | .ret _ => some .out
  | .call (.direct f) none => some (.call f none)
  | .call (.direct f) (some (.direct t)) => some (.call f (some t))
  | _ => none

/-- Each block of a list with the one behind it. -/
def follow : List Blk → List (Blk × Option String)
  | [] => []
  | [b] => [(b, none)]
  | b :: c :: rest => (b, some c.tid) :: follow (c :: rest)

/-- The block of a name with the one behind it. Of several blocks of a name the last one counts. -/
def Sub.at? (s : Sub) (tid : String) : Option (Blk × Option String) :=
  (follow s.blks).reverse.find? (·.1.tid == tid)

def Sub.first? (s : Sub) : Option String := s.blks.head?.map (·.tid)

inductive Assigns : List Def → Store → Store → Prop
  | nil : Assigns [] σ σ
  | cons : d.rhs.Yields σ x → Assigns ds (Function.update σ d.lhs x) σ' → Assigns (d :: ds) σ σ'

/-- The jump that is taken: the first one whose condition is not zero. -/
inductive Takes (σ : Store) : List Jump → Option Jump → Prop
  | nil : Takes σ [] none
  | this : j.cond.Yields σ x → x.nonZero? = some true → Takes σ (j :: js) (some j)
  | next : j.cond.Yields σ x → x.nonZero? = some false → Takes σ js t → Takes σ (j :: js) t

inductive Blk.Leaves (b : Blk) : Option String → Store → Way → Store → Prop
  | jump : Assigns b.defs σ σ' → Takes σ' b.jumps (some j) → j.way? = some w →
      b.Leaves behind σ w σ'
  | next : Assigns b.defs σ σ' → Takes σ' b.jumps none → b.Leaves (some t) σ (.goto t) σ'
  | last : Assigns b.defs σ σ' → Takes σ' b.jumps none → b.Leaves none σ .out σ'

/-- One step of a run: the way that control goes from a block of the subroutine. -/
inductive Sub.Leaves (s : Sub) : String → Store → Way → Store → Prop
  | mk : s.at? t = some (b, behind) → b.Leaves behind σ w σ' → s.Leaves t σ w σ'

/-- How a run ends: at the return, or where it goes on at what is no block. -/
inductive Outcome
  | returned (σ : Store)
  | strayed (tid : String)

/-- What a call runs: a subroutine of the program from its entry on. -/
inductive Enters (subs : List Sub) : String → Sub → String → Prop
  | mk : findCallee? subs (.direct f) = some c → c.first? = some e → Enters subs f c e

/-- The run of a subroutine from a block on, with the blocks that it visits. -/
inductive Runs (subs : List Sub) : Sub → String → Store → List String → Outcome → Prop
  | stray : s.at? t = none → Runs subs s t σ [] (.strayed t)
  | out : s.Leaves t σ .out σ' → Runs subs s t σ [t] (.returned σ')
  | goto : s.Leaves t σ (.goto u) σ' → Runs subs s u σ' trace o → Runs subs s t σ (t :: trace) o
  | tail : s.Leaves t σ (.call f none) σ' → Enters subs f c e → Runs subs c e σ' trace o →
      Runs subs s t σ [t] o
  | call : s.Leaves t σ (.call f (some u)) σ' → Enters subs f c e →
      Runs subs c e σ' trace' (.returned σ₂) → Runs subs s u σ₂ trace o →
      Runs subs s t σ (t :: trace) o
  | lost : s.Leaves t σ (.call f (some u)) σ' → Enters subs f c e →
      Runs subs c e σ' trace' (.strayed v) → Runs subs s t σ [t] (.strayed v)

/-- The blocks that a run visits up to one of them. -/
inductive Reaches (subs : List Sub) : Sub → String → Store → List String → Prop
  | here : (s.at? t).isSome → Reaches subs s t σ [t]
  | goto : s.Leaves t σ (.goto u) σ' → Reaches subs s u σ' trace → Reaches subs s t σ (t :: trace)
  | call : s.Leaves t σ (.call f (some u)) σ' → Enters subs f c e →
      Runs subs c e σ' trace' (.returned σ₂) → Reaches subs s u σ₂ trace →
      Reaches subs s t σ (t :: trace)

/-! ### Runs without unknown expressions -/

def Blk.known (b : Blk) : Bool := b.defs.all (·.rhs.known) && b.jumps.all (·.cond.known)

def Sub.known (s : Sub) : Bool := s.blks.all Blk.known

/-- Some jump of the subroutine calls the other. -/
inductive Sub.Calls (subs : List Sub) (s c : Sub) : Prop
  | mk (b : Blk) (j : Jump) : b ∈ s.blks → j ∈ b.jumps → j.way? = some (.call f back) →
      findCallee? subs (.direct f) = some c → s.Calls subs c

theorem follow_fst (bs : List Blk) : (follow bs).map (·.1) = bs := by
  induction bs with
  | nil => rfl
  | cons b bs ih =>
    cases bs with
    | nil => rfl
    | cons c rest => exact congrArg (b :: ·) ih

theorem Sub.mem_of_at? {s : Sub} (h : s.at? t = some (b, behind)) :
    b ∈ s.blks ∧ b.tid = t := by
  rw [at?] at h
  have hb := List.mem_reverse.mp (List.mem_of_find?_eq_some h)
  have ht := List.find?_some h
  exact ⟨follow_fst s.blks ▸ List.mem_map_of_mem hb, eq_of_beq ht⟩

theorem Sub.at?_isSome {s : Sub} (h : t ∈ s.blks.map Blk.tid) : (s.at? t).isSome := by
  obtain ⟨b, hb, rfl⟩ := List.mem_map.mp h
  rw [← follow_fst s.blks] at hb
  obtain ⟨p, hp, rfl⟩ := List.mem_map.mp hb
  exact List.find?_isSome.mpr ⟨p, List.mem_reverse.mpr hp, beq_self_eq_true _⟩

theorem Takes.mem (h : Takes σ js (some j)) : j ∈ js := by
  generalize ht : some j = t at h
  induction h with
  | nil => cases ht
  | this => cases ht; exact List.mem_cons_self
  | next _ _ _ ih => exact List.mem_cons_of_mem _ (ih ht)

/-- An unconditional jump is not passed by. -/
theorem Takes.cond_ne_always (h : Takes σ js none) (hj : j ∈ js) : j.cond ≠ Exp.always := by
  generalize ht : none = t at h
  induction h with
  | nil => cases hj
  | this => cases ht
  | next hx hz _ ih =>
    rcases List.mem_cons.mp hj with rfl | hj
    · intro hc
      rw [hc] at hx
      cases hx.unique rfl .always
      cases hz
    · exact ih hj ht

theorem Assigns.unique (hk : ds.all (·.rhs.known)) (h : Assigns ds σ σ₁) (h' : Assigns ds σ σ₂) :
    σ₁ = σ₂ := by
  induction h with
  | nil => cases h'; rfl
  | cons hx _ ih =>
    rw [List.all_cons, Bool.and_eq_true] at hk
    cases h' with
    | cons hx' h' =>
      cases hx.unique hk.1 hx'
      exact ih hk.2 h'

theorem Takes.unique (hk : js.all (·.cond.known)) (h : Takes σ js t) (h' : Takes σ js t') :
    t = t' := by
  induction h with
  | nil => cases h'; rfl
  | this hx hz =>
    rw [List.all_cons, Bool.and_eq_true] at hk
    cases h' with
    | this => rfl
    | next hx' hz' =>
      cases hx.unique hk.1 hx'
      cases hz.symm.trans hz'
  | next hx hz _ ih =>
    rw [List.all_cons, Bool.and_eq_true] at hk
    cases h' with
    | this hx' hz' =>
      cases hx.unique hk.1 hx'
      cases hz.symm.trans hz'
    | next _ _ h' => exact ih hk.2 h'

theorem Blk.Leaves.unique {b : Blk} (hk : b.known) (h : b.Leaves behind σ w σ₁)
    (h' : b.Leaves behind σ w' σ₂) : w = w' ∧ σ₁ = σ₂ := by
  rw [known, Bool.and_eq_true] at hk
  cases h with
  | jump ha ht hw =>
    cases h' with
    | jump ha' ht' hw' =>
      cases ha.unique hk.1 ha'
      cases ht.unique hk.2 ht'
      exact ⟨Option.some.inj (hw.symm.trans hw'), rfl⟩
    | next ha' ht' => cases ha.unique hk.1 ha'; cases ht.unique hk.2 ht'
    | last ha' ht' => cases ha.unique hk.1 ha'; cases ht.unique hk.2 ht'
  | next ha ht =>
    cases h' with
    | jump ha' ht' => cases ha.unique hk.1 ha'; cases ht.unique hk.2 ht'
    | next ha' ht' => exact ⟨rfl, ha.unique hk.1 ha'⟩
  | last ha ht =>
    cases h' with
    | jump ha' ht' => cases ha.unique hk.1 ha'; cases ht.unique hk.2 ht'
    | last ha' ht' => exact ⟨rfl, ha.unique hk.1 ha'⟩

theorem Sub.Leaves.unique {s : Sub} (hk : s.known) (h : s.Leaves t σ w σ₁)
    (h' : s.Leaves t σ w' σ₂) : w = w' ∧ σ₁ = σ₂ := by
  cases h with
  | mk hb h =>
    cases h' with
    | mk hb' h' =>
      cases hb.symm.trans hb'
      exact h.unique (List.all_eq_true.mp hk _ (Sub.mem_of_at? hb).1) h'

theorem Enters.unique (h : Enters subs f c e) (h' : Enters subs f c' e') : c = c' ∧ e = e' := by
  cases h with
  | mk hc he =>
    cases h' with
    | mk hc' he' =>
      cases hc.symm.trans hc'
      exact ⟨rfl, Option.some.inj (he.symm.trans he')⟩

theorem Sub.Leaves.at? {s : Sub} (h : s.Leaves t σ w σ') : ∃ p, s.at? t = some p := by
  cases h with
  | mk hb => exact ⟨_, hb⟩

theorem Sub.Leaves.calls {s : Sub} (h : s.Leaves t σ (.call f back) σ') (hc : Enters subs f c e) :
    s.Calls subs c := by
  cases h with
  | mk hb hl =>
    cases hl with
    | jump _ ht hw =>
      cases hc with
      | mk hc => exact .mk _ _ (Sub.mem_of_at? hb).1 ht.mem hw hc

/-- The expressions of all subroutines that may be called are known. -/
def Sub.KnownBelow (subs : List Sub) (s : Sub) : Prop :=
  ∀ t, ReflTransGen (Sub.Calls subs) s t → t.known

theorem Sub.KnownBelow.callee {s : Sub} (hk : s.KnownBelow subs)
    (h : s.Leaves t σ (.call f back) σ') (hc : Enters subs f c e) : c.KnownBelow subs :=
  fun u hu => hk u (.head (h.calls hc) hu)

/-- How a run goes on after its first step. -/
theorem Runs.inv {s : Sub} (hk : s.known) (hl : s.Leaves t σ w σ')
    (h : Runs subs s t σ trace o) :
    match w with
    | .out => trace = [t] ∧ o = .returned σ'
    | .goto u => ∃ rest, trace = t :: rest ∧ Runs subs s u σ' rest o
    | .call f none => trace = [t] ∧ ∃ c e trace', Enters subs f c e ∧ Runs subs c e σ' trace' o
    | .call f (some u) => ∃ c e trace', Enters subs f c e ∧
      ((∃ σ₂ rest, trace = t :: rest ∧ Runs subs c e σ' trace' (.returned σ₂) ∧
          Runs subs s u σ₂ rest o) ∨
        ∃ v, trace = [t] ∧ o = .strayed v ∧ Runs subs c e σ' trace' (.strayed v)) := by
  cases h with
  | stray hs =>
    obtain ⟨p, hp⟩ := hl.at?
    cases hs.symm.trans hp
  | out hl' =>
    obtain ⟨rfl, rfl⟩ := hl.unique hk hl'
    exact ⟨rfl, rfl⟩
  | goto hl' h =>
    obtain ⟨rfl, rfl⟩ := hl.unique hk hl'
    exact ⟨_, rfl, h⟩
  | tail hl' he h =>
    obtain ⟨rfl, rfl⟩ := hl.unique hk hl'
    exact ⟨rfl, _, _, _, he, h⟩
  | call hl' he hc h =>
    obtain ⟨rfl, rfl⟩ := hl.unique hk hl'
    exact ⟨_, _, _, he, .inl ⟨_, _, rfl, hc, h⟩⟩
  | lost hl' he hc =>
    obtain ⟨rfl, rfl⟩ := hl.unique hk hl'
    exact ⟨_, _, _, he, .inr ⟨_, rfl, rfl, hc⟩⟩

theorem Runs.unique {s : Sub} (hk : s.KnownBelow subs) (h : Runs subs s t σ trace o)
    (h' : Runs subs s t σ trace' o') : trace = trace' ∧ o = o' := by
  induction h generalizing trace' o' with
  | stray hs =>
    cases h' with
    | stray => exact ⟨rfl, rfl⟩
    | out hl | goto hl | tail hl | call hl | lost hl =>
      obtain ⟨p, hp⟩ := hl.at?
      cases hs.symm.trans hp
  | out hl =>
    obtain ⟨rfl, rfl⟩ := h'.inv (hk _ .refl) hl
    exact ⟨rfl, rfl⟩
  | goto hl _ ih =>
    obtain ⟨rest, rfl, hr⟩ := h'.inv (hk _ .refl) hl
    obtain ⟨rfl, rfl⟩ := ih hk hr
    exact ⟨rfl, rfl⟩
  | tail hl he _ ih =>
    obtain ⟨rfl, c, e, trace', he', h'⟩ := h'.inv (hk _ .refl) hl
    obtain ⟨rfl, rfl⟩ := he.unique he'
    exact ⟨rfl, (ih (hk.callee hl he) h').2⟩
  | call hl he _ _ ihc ih =>
    obtain ⟨c, e, trace', he', h'⟩ := h'.inv (hk _ .refl) hl
    obtain ⟨rfl, rfl⟩ := he.unique he'
    rcases h' with ⟨σ₂, rest, rfl, hc, h'⟩ | ⟨v, rfl, rfl, hc⟩
    · cases (ihc (hk.callee hl he) hc).2
      obtain ⟨rfl, rfl⟩ := ih hk h'
      exact ⟨rfl, rfl⟩
    · cases (ihc (hk.callee hl he) hc).2
  | lost hl he _ ih =>
    obtain ⟨c, e, trace', he', h'⟩ := h'.inv (hk _ .refl) hl
    obtain ⟨rfl, rfl⟩ := he.unique he'
    rcases h' with ⟨σ₂, rest, rfl, hc, h'⟩ | ⟨v, rfl, rfl, hc⟩
    · cases (ih (hk.callee hl he) hc).2
    · cases (ih (hk.callee hl he) hc).2
      exact ⟨rfl, rfl⟩

/-- What a run reaches is a beginning of what it visits. -/
theorem Reaches.isPrefix {s : Sub} (hk : s.KnownBelow subs) (h : Reaches subs s t σ trace)
    (h' : Runs subs s t σ trace' o) : trace <+: trace' := by
  induction h generalizing trace' o with
  | here hs =>
    cases h' with
    | stray hs' => rw [hs'] at hs; cases hs
    | out | tail | lost => exact List.prefix_rfl
    | goto | call => exact ⟨_, rfl⟩
  | goto hl _ ih =>
    obtain ⟨rest, rfl, hr⟩ := h'.inv (hk _ .refl) hl
    exact List.cons_prefix_cons.mpr ⟨rfl, ih hk hr⟩
  | call hl he hc _ ih =>
    obtain ⟨c, e, trace', he', h'⟩ := h'.inv (hk _ .refl) hl
    obtain ⟨rfl, rfl⟩ := he.unique he'
    rcases h' with ⟨σ₂, rest, rfl, hc', h'⟩ | ⟨v, rfl, rfl, hc'⟩
    · cases (hc.unique (hk.callee hl he) hc').2
      exact List.cons_prefix_cons.mpr ⟨rfl, ih hk h'⟩
    · cases (hc.unique (hk.callee hl he) hc').2

/-! ### What is read

Stores with equal values of the variables that occur in an expression, or in definitions, are not told
apart. -/

section

variable {σ σ' τ : Store}

/-- What an expression yields depends on its free variables only. -/
theorem Exp.Yields.congr {e : Exp} {x : Value} (h : e.Yields σ x)
    (hσ : ∀ v ∈ e.freeVars, σ v = τ v) : e.Yields τ x := by
  induction h generalizing τ with
  | @var _ v =>
    rw [hσ v (List.mem_singleton_self v)]
    exact .var
  | lit hw => exact .lit hw
  | load _ _ hx ihm iha =>
    obtain ⟨hm, ha⟩ := List.forall_mem_append.mp hσ
    exact .load (ihm hm) (iha ha) hx
  | store _ _ _ hx ihm iha ihv =>
    obtain ⟨hma, hv⟩ := List.forall_mem_append.mp hσ
    obtain ⟨hm, ha⟩ := List.forall_mem_append.mp hma
    exact .store (ihm hm) (iha ha) (ihv hv) hx
  | bin _ _ hx ihl ihr =>
    obtain ⟨hl, hr⟩ := List.forall_mem_append.mp hσ
    exact .bin (ihl hl) (ihr hr) hx
  | un _ hx ih => exact .un (ih hσ) hx
  | cast _ hx ih => exact .cast (ih hσ) hx
  | ite _ _ _ hx ihc ihy ihn =>
    obtain ⟨hcy, hn⟩ := List.forall_mem_append.mp hσ
    obtain ⟨hc, hy⟩ := List.forall_mem_append.mp hcy
    exact .ite (ihc hc) (ihy hy) (ihn hn) hx
  | extract _ hx ih => exact .extract (ih hσ) hx
  | concat _ _ hx ihl ihr =>
    obtain ⟨hl, hr⟩ := List.forall_mem_append.mp hσ
    exact .concat (ihl hl) (ihr hr) hx
  | unknown ht => exact .unknown ht
  | @letIn σ value y v body x _ _ ihv ihb =>
    obtain ⟨hvalue, hbody⟩ := List.forall_mem_append.mp hσ
    refine .letIn (ihv hvalue) (ihb fun u hu => ?_)
    -- the bound variable has got the same value in both stores
    by_cases huv : u = v
    · rw [huv, Function.update_self, Function.update_self]
    · rw [Function.update_of_ne huv, Function.update_of_ne huv]
      exact hbody u (List.mem_filter.mpr ⟨hu, decide_eq_true huv⟩)

/-- Definitions that read variables of `S` only take stores that are equal on `S` to such stores. -/
theorem Assigns.congr {ds : List Def} {S : Var → Prop} (h : Assigns ds σ σ')
    (hS : ∀ d ∈ ds, ∀ v ∈ d.rhs.freeVars, S v) (hσ : ∀ v, S v → σ v = τ v) :
    ∃ τ', Assigns ds τ τ' ∧ ∀ v, S v → σ' v = τ' v := by
  induction h generalizing τ with
  | nil => exact ⟨τ, .nil, hσ⟩
  | @cons ds σ x σ' d hx _ ih =>
    obtain ⟨hd, hds⟩ := List.forall_mem_cons.mp hS
    obtain ⟨τ', hτ', heq⟩ := ih (τ := Function.update τ d.lhs x) hds fun v hv => by
      by_cases hvd : v = d.lhs
      · rw [hvd, Function.update_self, Function.update_self]
      · rw [Function.update_of_ne hvd, Function.update_of_ne hvd]
        exact hσ v hv
    exact ⟨τ', .cons (hx.congr fun v hv => hσ v (hd v hv)) hτ', heq⟩

end

end Precond.IR
