import Precond.Fault
import Precond.Pattern.Basic

/-! Reading patterns. Items follow each other, a bar separates alternatives, brackets hold a set of
characters, a repetition mark applies to the item before it, and parentheses hold a group. A group
without a mark is numbered, and `(?P<name>…)` gives it a name as well; further kinds are `(?:…)`,
`(?>…)`, `(?=…)`, `(?!…)`, `(?<=…)`, `(?<!…)`, `(?(group)…|…)`, `(?P=name)`, comments `(?#…)`, flags for
all of the pattern, `(?aimstux)` at its start, and flags for a group, `(?imsx-imsx:…)`. A brace that does
not begin a repetition stands for itself.

Not every text is a pattern. Some texts are not refused but end the reading in a fault of their own:
the number of a repetition has to be less than `Reader.maxRepeat` and may not have more digits than a
numeral, and the flags `a` and `u` exclude each other. Characters by name, `\N{…}`, are those of ASCII;
the names of others are refused. -/

namespace Precond.Pattern

/-- A character of a pattern, alone or behind a backslash, or a backslash that ends the pattern. -/
inductive Token
  | plain (c : Char)
  | escaped (c : Char)
  | lone
  deriving DecidableEq, Repr

def tokens : List Char → List Token
  | [] => []
  | ['\\'] => [.lone]
  | '\\' :: c :: cs => .escaped c :: tokens cs
  | c :: cs => .plain c :: tokens cs

structure Flags where
  ignoreCase : Bool := false
  /-- Lines have starts and ends of their own. -/
  lines : Bool := false
  dotAll : Bool := false
  /-- Blanks and comments are skipped. -/
  verbose : Bool := false
  ascii : Bool := false
  unicode : Bool := false
  /-- No repetitions. -/
  template : Bool := false
  deriving DecidableEq, Repr, Inhabited

namespace Flags

def mode (f : Flags) : CharMode := ⟨f.ignoreCase, f.ascii⟩

/-- The flag of a letter. -/
def ofLetter? : Char → Option Flags
  | 'i' => some { ignoreCase := true }
  | 'm' => some { lines := true }
  | 's' => some { dotAll := true }
  | 'x' => some { verbose := true }
  | 'a' => some { ascii := true }
  | 'u' => some { unicode := true }
  | 't' => some { template := true }
  | _ => none

def union (f g : Flags) : Flags where
  ignoreCase := f.ignoreCase || g.ignoreCase
  lines := f.lines || g.lines
  dotAll := f.dotAll || g.dotAll
  verbose := f.verbose || g.verbose
  ascii := f.ascii || g.ascii
  unicode := f.unicode || g.unicode
  template := f.template || g.template

def without (f g : Flags) : Flags where
  ignoreCase := f.ignoreCase && !g.ignoreCase
  lines := f.lines && !g.lines
  dotAll := f.dotAll && !g.dotAll
  verbose := f.verbose && !g.verbose
  ascii := f.ascii && !g.ascii
  unicode := f.unicode && !g.unicode
  template := f.template && !g.template

/-- Whether the letters are chosen, those of ASCII or those of all scripts. -/
def choosesLetters (f : Flags) : Bool := f.ascii || f.unicode

def disjoint (f g : Flags) : Bool := f.without g == f

/-- The flags within a group. -/
def within (f add drop : Flags) : Flags :=
  let kept := if add.choosesLetters then f.without { ascii := true, unicode := true } else f
  (kept.union add).without drop

end Flags

/-- What has been read of a pattern. -/
structure State where
  rest : List Token
  flags : Flags := {}
  /-- The widths of the groups in order, none for a group that is open. -/
  widths : List (Option Width) := []
  names : Table String Nat := []
  /-- Within a look behind, how many groups there were before it. -/
  behind : Option Nat := none
  /-- The groups that are asked for by number. -/
  asked : List Nat := []

abbrev Reader := StateT State (Except PatternFault)

namespace Reader

variable {α : Type}

def refuse : Reader α := throw .invalid

def peek : Reader (Option Token) := do return (← get).rest.head?

/-- The next token. The one behind it comes into sight and may not be a lone backslash. -/
def next? : Reader (Option Token) := do
  match (← get).rest with
  | [] => return none
  | t :: rest =>
    if rest = [.lone] then refuse
    modify fun s => { s with rest }
    return some t

/-- Whether a character comes next, which is then taken. -/
def accept (c : Char) : Reader Bool := do
  if (← peek) = some (.plain c) then
    let _ ← next?
    return true
  return false

def require (c : Char) : Reader Unit := do
  unless ← accept c do refuse

/-- Up to `n` characters of a kind. -/
def while_ (p : Char → Bool) : Nat → Reader (List Char)
  | 0 => return []
  | n + 1 => do
    match ← peek with
    | some (.plain c) =>
      if p c then
        let _ ← next?
        return c :: (← while_ p n)
      return []
    | _ => return []

/-- The characters up to a closing one, at least one. -/
def until_ (close : Char) : Nat → List Char → Reader (List Char)
  | 0, _ => refuse
  | n + 1, before => do
    match ← next? with
    | some (.plain c) =>
      if c ≠ close then until_ close n (c :: before)
      else if before.isEmpty then refuse
      else return before.reverse
    | _ => refuse

/-- Skip tokens up to a closing one. -/
def skip (close : Char) : Nat → Reader Bool
  | 0 => return false
  | n + 1 => do
    match ← next? with
    | some t => if t = .plain close then return true else skip close n
    | none => return false

/-- As many steps as there can be in what is left. -/
def left : Reader Nat := do return (← get).rest.length + 1

/-! ### Escapes -/

/-- The sets that a letter behind a backslash stands for. -/
def setEscape? : Char → Option CharSet
  | 'd' => some .digit
  | 'D' => some (.compl .digit)
  | 's' => some .blank
  | 'S' => some (.compl .blank)
  | 'w' => some .word
  | 'W' => some (.compl .word)
  | _ => none

def letterEscapes : List (Char × Nat) :=
  [('a', 7), ('f', 12), ('n', 10), ('r', 13), ('t', 9), ('v', 11)]

/-- How many hexadecimal digits follow a letter. -/
def hexEscapes : List (Char × Nat) := [('x', 2), ('u', 4), ('U', 8)]

/-- The code point of so many hexadecimal digits. -/
def hexCode (digits : Nat) : Reader Nat := do
  let ds ← while_ (fun d => (Text.digitValue? 16 d).isSome) digits
  match Text.digits? 16 ds with
  | some n => if ds.length < digits || 0x10ffff < n then refuse else return n
  | none => refuse

def isOctal (c : Char) : Bool := '0' ≤ c && c ≤ '7'

/-- The code point of octal digits. -/
def octalCode (ds : List Char) : Reader Nat :=
  match Text.digits? 8 ds with
  | some n => if 0o377 < n then refuse else return n
  | none => refuse

/-- The code point of a name between braces. -/
def namedChar : Reader Nat := do
  require '\x7b'
  match Text.named? (String.ofList (← until_ '\x7d' (← left) [])) with
  | some n => return n
  | none => refuse

/-- The code point that a letter or another character behind a backslash stands for; not a digit. -/
def charEscape (c : Char) : Reader Nat := do
  match letterEscapes.lookup c, hexEscapes.lookup c with
  | some n, _ => return n
  | none, some digits => hexCode digits
  | none, none =>
    if c = 'N' then namedChar
    else if c.isAlphanum then refuse
    else return c.toNat

/-- A member of a bracketed set: a single character or a set of its own. -/
inductive Member
  | char (n : Nat)
  | set (s : CharSet)

def Member.toSet : Member → CharSet
  | .char n => .single n
  | .set s => s

def memberEscape (c : Char) : Reader Member := do
  match setEscape? c with
  | some s => return .set s
  | none =>
    if c = 'b' then return .char 8
    else if isOctal c then return .char (← octalCode (c :: (← while_ isOctal 2)))
    else return .char (← charEscape c)

def memberOf : Token → Reader Member
  | .plain c => return .char c.toNat
  | .escaped c => memberEscape c
  | .lone => refuse

/-- The members up to the closing bracket; one that comes first stands for itself. -/
def members : Nat → Option CharSet → Reader CharSet
  | 0, _ => refuse
  | fuel + 1, acc => do
    let some t ← next? | refuse
    match t, acc with
    | .plain ']', some s => return s
    | t, acc =>
      let joined := fun (s : CharSet) => match acc with
        | some r => CharSet.union r s
        | none => s
      let m ← memberOf t
      if ← accept '-' then
        match ← next? with
        | none => refuse
        | some (.plain ']') => return .union (joined m.toSet) (.single '-'.toNat)
        | some t =>
          match m, ← memberOf t with
          | .char low, .char high =>
            if high < low then refuse else members fuel (some (joined (.range low high)))
          | _, _ => refuse
      else members fuel (some (joined m.toSet))

def charSet : Reader CharSet := do
  if ← accept '^' then return .compl (← members (← left) none)
  else members (← left) none

/-! ### Groups and references -/

/-- What may be done with an item: a place is not repeated, and neither is a repetition. -/
inductive Kind
  | plain | place | loop
  deriving DecidableEq, Repr

abbrev Item := Pattern × Kind

/-- The width of a group that is closed and may be referred to here. -/
def widthOf (n : Nat) : Reader Width := do
  let s ← get
  match (s.widths[n - 1]?).join with
  | some w => if s.behind.any (· < n) then refuse else return w
  | none => refuse

def reference (f : Flags) (n : Nat) : Reader Item := do
  return (.back n (← widthOf n) f.mode, .plain)

/-- The number of a new group. -/
def openGroup (name : Option String) : Reader Nat := do
  let s ← get
  let n := s.widths.length + 1
  match name with
  | some name =>
    if (s.names.lookup name).isSome then refuse
    set { s with widths := s.widths ++ [none], names := Table.put s.names name n }
  | none => set { s with widths := s.widths ++ [none] }
  return n

def closeGroup (n : Nat) (w : Width) : Reader Unit :=
  modify fun s => { s with widths := s.widths.set (n - 1) (some w) }

def identifier (close : Char) : Reader String := do
  let name ← until_ close (← left) []
  if Text.isIdentifier name then return String.ofList name else refuse

/-- The code point or the group that digits behind a backslash stand for. -/
def digitEscape (f : Flags) (c : Char) : Reader Item := do
  let char := fun n => ((.one f.mode (.single n), .plain) : Item)
  if c = '0' then return char (← octalCode (c :: (← while_ isOctal 2)))
  else
    match ← while_ Char.isDigit 1 with
    | [d] =>
      if isOctal c && isOctal d then
        match ← while_ isOctal 1 with
        | [e] => return char (← octalCode [c, d, e])
        | _ => number [c, d]
      else number [c, d]
    | _ => number [c]
where
  number (ds : List Char) : Reader Item :=
    match Text.digits? 10 ds with
    | some n => reference f n
    | none => refuse

/-- The item that a character behind a backslash stands for. -/
def escape (f : Flags) (c : Char) : Reader Item := do
  match c with
  | 'A' => return (.place .start, .place)
  | 'Z' => return (.place .textEnd, .place)
  | 'b' => return (.place (.wordEdge f.mode true), .place)
  | 'B' => return (.place (.wordEdge f.mode false), .place)
  | c =>
    match setEscape? c with
    | some s => return (.one f.mode s, .plain)
    | none =>
      if c.isDigit then digitEscape f c
      else return (.one f.mode (.single (← charEscape c)), .plain)

/-- The group of a condition, by name or by number. -/
def conditionGroup : Reader Nat := do
  let name ← until_ ')' (← left) []
  let n ← if Text.isIdentifier name then
      match (← get).names.lookup (String.ofList name) with
      | some n => pure n
      | none => refuse
    else
      match Text.decimal? (String.ofList name) with
      | some (.ofNat (n + 1)) =>
        modify fun s => { s with asked := (n + 1) :: s.asked }
        pure (n + 1)
      | _ => refuse
  if (← get).behind.isSome then let _ ← widthOf n
  return n

/-! ### Flags -/

/-- Flags from a letter on, up to one of some closing characters. -/
def flagLetters (allowed : Flags → Bool) (closers : List Char) :
    Nat → Flags → Char → Reader (Flags × Char)
  | 0, _, _ => refuse
  | fuel + 1, acc, c => do
    match Flags.ofLetter? c with
    | none => refuse
    | some f =>
      let acc := acc.union f
      if !allowed f || (acc.ascii && acc.unicode) then refuse
      match ← next? with
      | some (.plain d) =>
        if closers.contains d then return (acc, d)
        else flagLetters allowed closers fuel acc d
      | _ => refuse

/-- The flags that are added and dropped, from a letter or a minus on, and whether they are those of
all of the pattern. -/
def flagMarks (c : Char) : Reader (Flags × Flags × Bool) := do
  let (add, close) ← if c = '-' then pure ({}, '-')
    else flagLetters (fun _ => true) [')', '-', ':'] (← left) {} c
  if close = ')' then return (add, {}, true)
  if add.template then refuse
  if close = ':' then return (add, {}, false)
  match ← next? with
  | some (.plain c) =>
    let (drop, _) ← flagLetters (fun f => !f.choosesLetters && !f.template) [':'] (← left) {} c
    if add.disjoint drop then return (add, drop, false) else refuse
  | _ => refuse

/-! ### Repetitions -/

/-- Numbers of repetitions are less than this one. -/
def maxRepeat : Nat := 4294967295

def repeatNumber (ds : List Char) : Reader Nat :=
  if Limits.numeralDigits < ds.length then throw .badDigits
  else
    match Text.digits? 10 ds with
    | some n => if maxRepeat ≤ n then throw .overflow else return n
    | none => refuse

/-- The digits between braces, if the braces hold the bounds of a repetition. -/
def bounds? (ts : List Token) : Option (List Char × List Char × List Token) :=
  let (low, ts) := digits ts
  match ts with
  | .plain '\x7d' :: rest => if low.isEmpty then none else some (low, low, rest)
  | .plain ',' :: ts =>
    match digits ts with
    | (high, .plain '\x7d' :: rest) => some (low, high, rest)
    | _ => none
  | _ => none
where
  digits : List Token → List Char × List Token
    | .plain c :: ts =>
      if c.isDigit then
        let (ds, rest) := digits ts
        (c :: ds, rest)
      else ([], .plain c :: ts)
    | ts => ([], ts)

/-- The bounds behind an opening brace, if it opens any. -/
def braces : Reader (Option (Nat × Option Nat)) := do
  match bounds? (← get).rest with
  | none => return none
  | some (low, high, rest) =>
    if rest = [.lone] then refuse
    modify fun s => { s with rest }
    let least ← if low.isEmpty then pure 0 else repeatNumber low
    if high.isEmpty then return some (least, none)
    let most ← repeatNumber high
    if most < least then refuse else return some (least, some most)

/-- The bounds of a repetition mark. -/
def mark (c : Char) : Reader (Option (Nat × Option Nat)) :=
  match c with
  | '*' => return some (0, none)
  | '+' => return some (1, none)
  | '?' => return some (0, some 1)
  | _ => braces

/-- Repeat the last item. -/
def repeatLast (least : Nat) (most : Option Nat) : List Item → Reader (List Item)
  | (p, .plain) :: before => do
    let repeated := fun how => ((.loop p least most how, .loop) :: before : List Item)
    if ← accept '?' then return repeated .lazy
    if ← accept '+' then return repeated .possessive
    return repeated .greedy
  | _ => refuse

/-! ### Patterns -/

/-- What a group adds: an item, nothing, or flags for all of the pattern. -/
inductive Piece
  | item (i : Item)
  | nothing
  | flags (f : Flags)

def joined (items : List Item) : Pattern :=
  items.foldl (fun p i => .seq i.1 p) .empty

/-- The item of a character that is not special. -/
def charItem (f : Flags) (c : Char) : Item :=
  match c with
  | '.' => (.one f.mode (if f.dotAll then .all else .line), .plain)
  | '^' => (.place (if f.lines then .lineStart else .start), .place)
  | '$' => (.place (if f.lines then .lineEnd else .finish), .place)
  | c => (.one f.mode (.single c.toNat), .plain)

def isSkipped (t : Token) : Bool :=
  t matches .plain ' ' | .plain '\t' | .plain '\n' | .plain '\r' | .plain '\x0b' | .plain '\x0c'

mutual

/-- The alternatives of the pattern, which may begin with flags, or of a group. -/
def alternatives : Nat → Bool → Flags → Reader Pattern
  | 0, _, _ => refuse
  | fuel + 1, top, f => do
    let p ← sequence fuel top f []
    if ← accept '|' then
      let whole := (← get).flags
      return .alt p (← alternatives fuel false (if top then whole else f))
    else return p

/-- The items up to a bar or the end of the group, behind some that have been read. -/
def sequence : Nat → Bool → Flags → List Item → Reader Pattern
  | 0, _, _, _ => refuse
  | fuel + 1, top, f, before => do
    match ← peek with
    | none | some (.plain '|') | some (.plain ')') => return joined before
    | some t =>
      let _ ← next?
      if f.verbose && isSkipped t then sequence fuel top f before
      else if f.verbose && t = .plain '#' then
        let _ ← skip '\n' (← left)
        sequence fuel top f before
      else
        match t with
        | .lone => refuse
        | .escaped c => sequence fuel top f ((← escape f c) :: before)
        | .plain '[' => sequence fuel top f ((.one f.mode (← charSet), .plain) :: before)
        | .plain '(' =>
          match ← group fuel (top && before.isEmpty) f with
          | .item i => sequence fuel top f (i :: before)
          | .nothing => sequence fuel top f before
          | .flags f => sequence fuel top f before
        | .plain c =>
          if c = '*' || c = '+' || c = '?' || c = '\x7b' then
            match ← mark c with
            | some (least, most) => sequence fuel top f (← repeatLast least most before)
            | none => sequence fuel top f (charItem f c :: before)
          else sequence fuel top f (charItem f c :: before)

/-- What a group adds, from behind its parenthesis on. -/
def group : Nat → Bool → Flags → Reader Piece
  | 0, _, _ => refuse
  | fuel + 1, first, f => do
    if ← accept '?' then
      match ← next? with
      | some (.plain 'P') =>
        if ← accept '<' then numbered fuel f (some (← identifier '>'))
        else if ← accept '=' then
          match (← get).names.lookup (← identifier ')') with
          | some n => return .item (← reference f n)
          | none => refuse
        else refuse
      | some (.plain ':') => return .item (← inner fuel f, .plain)
      | some (.plain '>') => return .item (.atomic (← inner fuel f), .plain)
      | some (.plain '#') => if ← skip ')' (← left) then return .nothing else refuse
      | some (.plain '=') => return .item (.look none true (← inner fuel f), .plain)
      | some (.plain '!') => return .item (.look none false (← inner fuel f), .plain)
      | some (.plain '<') =>
        if ← accept '=' then return .item (← behind fuel f true, .plain)
        else if ← accept '!' then return .item (← behind fuel f false, .plain)
        else refuse
      | some (.plain '(') =>
        let n ← conditionGroup
        let yes ← sequence fuel false f []
        let no ← if ← accept '|' then sequence fuel false f [] else pure .empty
        require ')'
        return .item (.choose n yes no, .plain)
      | some (.plain c) =>
        let (add, drop, whole) ← flagMarks c
        if whole then
          modify fun s => { s with flags := s.flags.union add }
          if first then return .flags (← get).flags else refuse
        else return .item (← inner fuel (f.within add drop), .plain)
      | _ => refuse
    else numbered fuel f none

/-- The alternatives up to the closing parenthesis. -/
def inner : Nat → Flags → Reader Pattern
  | 0, _ => refuse
  | fuel + 1, f => do
    let p ← alternatives fuel false f
    require ')'
    return p

def numbered : Nat → Flags → Option String → Reader Piece
  | 0, _, _ => refuse
  | fuel + 1, f, name => do
    let n ← openGroup name
    let p ← inner fuel f
    closeGroup n p.width
    return .item (.group n p, .plain)

/-- A look behind. It refers to no group that is opened within it. -/
def behind : Nat → Flags → Bool → Reader Pattern
  | 0, _, _ => refuse
  | fuel + 1, f, holds => do
    let outer := (← get).behind
    modify fun s => { s with behind := some (outer.getD s.widths.length) }
    let p ← alternatives fuel false f
    modify fun s => { s with behind := outer }
    require ')'
    return .look (some p.width) holds p

end

end Reader

/-- Whether what looks behind has a fixed width, and nothing is repeated if that is not allowed. -/
def permitted (template : Bool) : Pattern → Bool
  | empty | place _ | one .. | back .. => true
  | seq p q | alt p q | choose _ p q => p.permitted template && q.permitted template
  | group _ p | atomic p | look none _ p => p.permitted template
  | loop p .. => !template && p.permitted template
  | look (some w) _ p =>
    w.least ≤ Reader.maxRepeat && w.most = some w.least && p.permitted template

/-- The pattern of a text, if the text is one. -/
def ofText (text : String) : Except PatternFault Pattern := do
  let ts := tokens text.toList
  if ts = [.lone] then throw .invalid
  -- a token takes a sequence, a group and what is within it, or one alternative more
  let (p, s) ← (Reader.alternatives (5 * ts.length + 5) true {}).run { rest := ts }
  if s.flags.ascii && s.flags.unicode then throw .flagsClash
  if !s.rest.isEmpty || s.asked.any (s.widths.length < ·) || !p.permitted s.flags.template then
    throw .invalid
  return p

end Precond.Pattern
