import Precond.Table
import Precond.Text.Letter
import Precond.Text.Numeral
import Precond.Text.Word

/-! Patterns for texts. From a place in a text a pattern gives the ways in which it matches, the ones
that are tried first in front; a way tells where it ends and what the groups have matched. Only groups
that something refers to are kept. -/

namespace Precond

/-- How the characters of a pattern are compared with those of a text. -/
structure CharMode where
  /-- Letters that differ only in case are the same. -/
  ignoreCase : Bool
  /-- Only ASCII characters are letters, digits and blanks. -/
  ascii : Bool
  deriving DecidableEq, Repr, Inhabited

namespace CharMode

def isDigit (m : CharMode) (c : Char) : Bool :=
  if m.ascii then c.isDigit else (Text.decimalValue? c).isSome

def isWord (m : CharMode) (c : Char) : Bool :=
  if m.ascii then c.isAlphanum || c == '_' else Text.isWord c

def isBlank (m : CharMode) (c : Char) : Bool :=
  if m.ascii then c == ' ' || (9 ≤ c.toNat && c.toNat ≤ 13) else Text.isMargin c

/-- The code points that a character counts as. -/
def variants (m : CharMode) (c : Char) : List Nat :=
  if !m.ignoreCase then [c.toNat]
  else if m.ascii then Text.caseVariantsAscii c.toNat
  else Text.caseVariants c.toNat

end CharMode

/-- A set of characters. Ranges are those of code points. -/
inductive CharSet
  | empty
  | range (low high : Nat)
  | digit
  | word
  | blank
  | union (s t : CharSet)
  | compl (s : CharSet)
  deriving DecidableEq, Repr, Inhabited

namespace CharSet

def single (n : Nat) : CharSet := range n n

def all : CharSet := compl empty

/-- Every character but the end of a line. -/
def line : CharSet := compl (single '\n'.toNat)

def has (m : CharMode) (c : Char) : CharSet → Bool
  | empty => false
  | range low high => (m.variants c).any fun n => low ≤ n && n ≤ high
  | digit => m.isDigit c
  | word => m.isWord c
  | blank => m.isBlank c
  | union s t => s.has m c || t.has m c
  | compl s => !s.has m c

end CharSet

/-- A condition on a place in a text. -/
inductive Place
  | start
  | lineStart
  /-- The end, or before a line end that ends the text. -/
  | finish
  | lineEnd
  | textEnd
  /-- Between a word character and another one, or where there is no such place. -/
  | wordEdge (m : CharMode) (here : Bool)
  deriving DecidableEq, Repr, Inhabited

namespace Place

def isWordAt (m : CharMode) (cs : Array Char) (i : Nat) : Bool := cs[i]?.any m.isWord

/-- Whether a word begins or ends at a position. -/
def atWordEdge (m : CharMode) (cs : Array Char) (i : Nat) : Bool :=
  (0 < i && isWordAt m cs (i - 1)) != isWordAt m cs i

/-- Whether a position of a text is such a place. An empty text has no place next to words. -/
def holds (cs : Array Char) (i : Nat) : Place → Bool
  | start => i = 0
  | lineStart => i = 0 || cs[i - 1]? == some '\n'
  | finish => i = cs.size || (i + 1 = cs.size && cs[i]? == some '\n')
  | lineEnd => i = cs.size || cs[i]? == some '\n'
  | textEnd => i = cs.size
  | wordEdge m here => !cs.isEmpty && atWordEdge m cs i == here

end Place

/-- How many characters something matches, at least and at most. -/
structure Width where
  least : Nat
  most : Option Nat
  deriving DecidableEq, Repr, Inhabited

namespace Width

def exact (n : Nat) : Width := ⟨n, some n⟩

def add (v w : Width) : Width :=
  ⟨v.least + w.least, do return (← v.most) + (← w.most)⟩

def join (v w : Width) : Width :=
  ⟨min v.least w.least, do return max (← v.most) (← w.most)⟩

/-- The width of a repetition. -/
def times (w : Width) (least : Nat) (most : Option Nat) : Width :=
  ⟨least * w.least,
    if w.most = some 0 || most = some 0 then some 0 else do return (← w.most) * (← most)⟩

end Width

/-- Which number of repetitions is tried first; a possessive one does not give back what it has
taken. -/
inductive Eagerness
  | greedy | lazy | possessive
  deriving DecidableEq, Repr, Inhabited

inductive Pattern
  | empty
  | one (m : CharMode) (s : CharSet)
  | seq (p q : Pattern)
  | alt (p q : Pattern)
  /-- At least `least` times and at most `most` times. -/
  | loop (p : Pattern) (least : Nat) (most : Option Nat) (how : Eagerness)
  | place (p : Place)
  | group (n : Nat) (p : Pattern)
  /-- What a group has matched, once more. -/
  | back (n : Nat) (w : Width) (m : CharMode)
  /-- Whether a match comes next or, if a width is given, ends here. -/
  | look (behind : Option Width) (holds : Bool) (p : Pattern)
  /-- Only the first way to match. -/
  | atomic (p : Pattern)
  /-- The first pattern if a group has matched, else the second one. -/
  | choose (n : Nat) (yes no : Pattern)
  deriving DecidableEq, Repr, Inhabited

namespace Pattern

def width : Pattern → Width
  | empty | place _ | look .. => .exact 0
  | one .. => .exact 1
  | seq p q => p.width.add q.width
  | alt p q | choose _ p q => p.width.join q.width
  | loop p least most _ => p.width.times least most
  | group _ p | atomic p => p.width
  | back _ w _ => w

/-- The groups that are referred to. -/
def referred : Pattern → List Nat
  | empty | place _ | one .. => []
  | seq p q | alt p q => p.referred ++ q.referred
  | loop p .. | group _ p | look _ _ p | atomic p => p.referred
  | back n .. => [n]
  | choose n p q => n :: (p.referred ++ q.referred)

/-- Where a match has got to, and what the groups have matched. -/
structure Spot where
  pos : Nat
  groups : Table Nat (Nat × Nat)
  deriving DecidableEq

/-- The spots that a number of steps lead to, the number being large or small. -/
def steps (step : Spot → List Spot) : Nat → List Spot → List Spot
  | 0, spots => spots
  | n + 1, spots =>
    let next := (spots.flatMap step).eraseDups
    -- further steps change nothing any more
    if next = spots then spots else steps step n next

/-- What a search has found, the last in front, and where it has gone on from with how many steps
left. -/
structure Trail where
  found : List Spot
  seen : List (Spot × Nat)

def Trail.add (t : Trail) (s : Spot) : Trail :=
  if t.found.contains s then t else { t with found := s :: t.found }

/-- The spots that up to `n` further steps lead to. A step that stays in its place is the last one. -/
def further (step : Spot → List Spot) (greedy : Bool) : Nat → Bool → Spot → Trail → Trail
  | 0, _, s, t => t.add s
  | n + 1, moved, s, t =>
    if !moved then t.add s
    else if t.seen.contains (s, n) then t
    else
      let onward := fun (t : Trail) =>
        (step s).foldl (fun t s' => further step greedy n (s'.pos != s.pos) s' t) t
      let t := { t with seen := (s, n) :: t.seen }
      if greedy then (onward t).add s else onward (t.add s)

/-- A repetition in a text of a length. Behind as many steps as the text has characters, a step stays
in its place. -/
def repeated (step : Spot → List Spot) (length least : Nat) (most : Option Nat) (greedy : Bool)
    (s : Spot) : List Spot :=
  let extra := match most with
    | some n => min (n - least) (length + 2)
    | none => length + 2
  let go := fun t s => further step greedy extra true s t
  ((steps step least [s]).foldl go ⟨[], []⟩).found.reverse

/-- Whether two characters are the same to a mode. -/
def sameChar (m : CharMode) (c d : Char) : Bool :=
  if !m.ignoreCase then c == d
  else if m.ascii then Text.lowerAscii c.toNat == Text.lowerAscii d.toNat
  else Text.lower c.toNat == Text.lower d.toNat

/-- Whether the text of a span stands again at a position. -/
def standsAgain (m : CharMode) (cs : Array Char) (span : Nat × Nat) (i : Nat) : Bool :=
  (List.range (span.2 - span.1)).all fun k =>
    match cs[span.1 + k]?, cs[i + k]? with
    | some c, some d => sameChar m c d
    | _, _ => false

/-- The ways to match from a spot. -/
def ways (cs : Array Char) (kept : List Nat) : Pattern → Spot → List Spot
  | empty, s => [s]
  | one m set, s => if cs[s.pos]?.any (set.has m) then [{ s with pos := s.pos + 1 }] else []
  | seq p q, s => ((p.ways cs kept s).flatMap (q.ways cs kept)).eraseDups
  | alt p q, s => (p.ways cs kept s ++ q.ways cs kept s).eraseDups
  | loop p least most how, s =>
    match how with
    | .greedy => repeated (p.ways cs kept) cs.size least most true s
    | .lazy => repeated (p.ways cs kept) cs.size least most false s
    | .possessive =>
      (repeated (fun s => (p.ways cs kept s).take 1) cs.size least most true s).take 1
  | place at_, s => if at_.holds cs s.pos then [s] else []
  | group n p, s => (p.ways cs kept s).map fun t =>
    if kept.contains n then { t with groups := Table.put t.groups n (s.pos, t.pos) } else t
  | back n _ m, s =>
    match s.groups.lookup n with
    | some span =>
      if standsAgain m cs span s.pos then [{ s with pos := s.pos + (span.2 - span.1) }] else []
    | none => []
  | look behind holds p, s =>
    let start := (behind.map (·.least)).getD 0
    let found := if s.pos < start then none
      else (p.ways cs kept { s with pos := s.pos - start }).head?
    match found with
    | some t => if holds then [{ t with pos := s.pos }] else []
    | none => if holds then [] else [s]
  | atomic p, s => (p.ways cs kept s).take 1
  | choose n yes no, s => if (s.groups.lookup n).isSome then yes.ways cs kept s else no.ways cs kept s

/-- Whether a pattern matches a text from its start to its end. -/
def matchesAll (p : Pattern) (s : String) : Bool :=
  let cs := s.toList.toArray
  (p.ways cs p.referred ⟨0, []⟩).any (·.pos = cs.size)

end Pattern

end Precond
