import Mathlib.Data.List.Infix
import PetProject.Framework.Pattern

/-!
# The patterns of SIMILAR TO

PostgreSQL reads a pattern as a sequence of signs, and these as branches of quantified atoms.
The contents of bracket expressions have their meaning from the locale. A backslash in front of
a letter or a digit, and the two bracket expressions for the ends of a word, lead into the
regular expressions of POSIX; what a pattern with one of them matches is left open.
-/

namespace Framework

/-- A sign of a pattern; `times` is a quantifier, apart from the one that also makes another one
non-greedy. -/
inductive Sign
  | letter (c : Char)
  | any
  | anyWord
  | bracket (content : List Char)
  | bar
  | opening
  | closing
  | times (least : Nat) (most : Option Nat)
  | question
  | beyond
  deriving DecidableEq, Repr

/-- How far a bracket expression has been read; a `]` that comes first is a member. -/
inductive BracketMode
  | start
  | first
  | body
  | escape
  | opened
  | inner (delimiter : Char)
  | ending (delimiter : Char)
  deriving DecidableEq, Repr

namespace BracketMode

/-- A character where a member of the brackets may stand; `none` when it closes them. -/
def member (c : Char) : Option BracketMode :=
  if c = ']' then none
  else if c = '\\' then some .escape
  else if c = '[' then some .opened
  else some .body

def next : BracketMode → Char → Option BracketMode
  | start, c => if c = '^' then some .first else if c = ']' then some .body else member c
  | first, c => if c = ']' then some .body else member c
  | body, c => member c
  | escape, _ => some .body
  | opened, c => if c = '.' ∨ c = ':' ∨ c = '=' then some (.inner c) else member c
  | inner delimiter, c => if c = delimiter then some (.ending delimiter) else some (.inner delimiter)
  | ending delimiter, c =>
      if c = ']' then some .body
      else if c = delimiter then some (.ending delimiter)
      else some (.inner delimiter)

end BracketMode

/-- What has been read of the sign under way. -/
inductive SignMode
  | ground
  | escape
  | bracket (mode : BracketMode) (acc : List Char)
  | least (n : Nat)
  | most (least : Nat) (n : Option Nat)
  | beyond
  deriving DecidableEq, Repr

def singleSign (c : Char) : Sign :=
  if c = '%' then .anyWord
  else if c = '_' then .any
  else if c = '|' then .bar
  else if c = '(' then .opening
  else if c = ')' then .closing
  else if c = '*' then .times 0 none
  else if c = '+' then .times 1 none
  else if c = '?' then .question
  else .letter c

/-- A brace opens a bound when a digit follows. -/
def OpensBound (c : Char) (s : List Char) : Prop := c = '{' ∧ ∃ d ∈ s.head?, d.isDigit

instance (c : Char) : (s : List Char) → Decidable (OpensBound c s)
  | [] => isFalse (by simp [OpensBound])
  | d :: _ => decidable_of_iff (c = '{' ∧ d.isDigit) (by simp [OpensBound])

def openSign (c : Char) (s : List Char) : SignMode × List Sign :=
  if c = '\\' then (.escape, [])
  else if c = '[' then (.bracket .start [], [])
  else if OpensBound c s then (.least 0, [])
  else (.ground, [singleSign c])

/-- After a backslash these do not stand for themselves, or not always. -/
def leadsBeyond (c : Char) : Bool := c.isAlphanum || c == '"' || decide (128 ≤ c.toNat)

/-- The bracket expressions that match the empty word at one end of a word. -/
def isWordEnd (content : List Char) : Bool :=
  content == "[:<:]".toList || content == "[:>:]".toList

def boundSign (least : Nat) : Option Nat → Option Sign
  | none => if least ≤ 255 then some (.times least none) else none
  | some most => if least ≤ most ∧ most ≤ 255 then some (.times least (some most)) else none

def withDigit (n : Nat) (c : Char) : Nat := 10 * n + (c.toNat - '0'.toNat)

/-- One character, and the ones that follow it; `none` when the pattern is not valid. -/
def signStep : SignMode → Char → List Char → Option (SignMode × List Sign)
  | .ground, c, s => some (openSign c s)
  | .escape, c, _ =>
      if leadsBeyond c then some (.beyond, [.beyond]) else some (.ground, [.letter c])
  | .bracket mode acc, c, _ =>
      match mode.next c with
      | some mode' => some (.bracket mode' (acc ++ [c]), [])
      | none =>
        if isWordEnd acc then some (.beyond, [.beyond]) else some (.ground, [.bracket acc])
  | .least n, c, _ =>
      if c.isDigit then some (.least (withDigit n c), [])
      else if c = ',' then some (.most n none, [])
      else if c = '}' then (boundSign n (some n)).map fun t => (.ground, [t])
      else none
  | .most least n, c, _ =>
      if c.isDigit then some (.most least (some (withDigit (n.getD 0) c)), [])
      else if c = '}' then (boundSign least n).map fun t => (.ground, [t])
      else none
  | .beyond, _, _ => some (.beyond, [])

/-- A pattern may end in a backslash, which then has no effect. -/
def signEnd : SignMode → Option (List Sign)
  | .ground => some []
  | .escape => some []
  | .bracket _ _ => none
  | .least _ => none
  | .most _ _ => none
  | .beyond => some []

def signsFrom : SignMode → List Char → Option (List Sign)
  | m, [] => signEnd m
  | m, c :: s => (signStep m c s).bind fun r => (signsFrom r.1 s).map fun ts => r.2 ++ ts

def signs (s : List Char) : Option (List Sign) := signsFrom .ground s

example : signs "a_%\\%[^]x[:alpha:]](b|c){2,}".toList =
    some [.letter 'a', .any, .anyWord, .letter '%', .bracket "^]x[:alpha:]".toList, .opening,
      .letter 'b', .bar, .letter 'c', .closing, .times 2 none] := by
  decide +kernel

/-! ## Branches -/

/-- The end of a branch: an atom may still be quantified, a quantified one made non-greedy. -/
inductive Last
  | nothing
  | atom (p : Pattern Char)
  | quantified (p : Pattern Char)

def Last.pattern : Last → Pattern Char
  | nothing => .empty
  | atom p => p
  | quantified p => p

/-- The branches between two parentheses: those in front, and the one under way with its end. -/
structure Branches where
  front : Pattern Char
  branch : Pattern Char
  last : Last

namespace Branches

def start : Branches := ⟨.never, .empty, .nothing⟩

def pattern (b : Branches) : Pattern Char := .alt b.front (.seq b.branch b.last.pattern)

def push (b : Branches) (last : Last) : Branches := ⟨b.front, .seq b.branch b.last.pattern, last⟩

/-- A quantifier follows; there must be an atom. -/
def quantify (b : Branches) (least : Nat) (most : Option Nat) : Option Branches :=
  match b.last with
  | .atom p => some { b with last := .quantified (.rep p least most) }
  | _ => none

/-- A `?` makes a quantifier non-greedy or is one. -/
def question (b : Branches) : Option Branches :=
  match b.last with
  | .quantified _ => some (b.push .nothing)
  | _ => b.quantify 0 (some 1)

end Branches

structure ParseState where
  current : Branches
  outer : List Branches

/-- The meaning of a bracket expression, from its content, and of the patterns that are left
open. -/
structure Dialect where
  bracket : List Char → Option (Char → Bool)
  beyond : List Char → List Char → Prop

def ParseState.atom (s : ParseState) (S : Char → Bool) : ParseState :=
  { s with current := s.current.push (.atom (.set S)) }

def parseSign (d : Dialect) (s : ParseState) : Sign → Option ParseState
  | .letter c => some (s.atom (· == c))
  | .any => some (s.atom fun _ => true)
  | .anyWord => some { s with current := s.current.push (.quantified .anyWord) }
  | .bracket content => (d.bracket content).map s.atom
  | .bar => some { s with current := ⟨s.current.pattern, .empty, .nothing⟩ }
  | .opening => some ⟨.start, s.current :: s.outer⟩
  | .closing =>
      match s.outer with
      | [] => none
      | b :: outer => some ⟨b.push (.atom s.current.pattern), outer⟩
  | .times least most => (s.current.quantify least most).map fun b => { s with current := b }
  | .question => s.current.question.map fun b => { s with current := b }
  | .beyond => none

def parseSigns (d : Dialect) : ParseState → List Sign → Option ParseState
  | s, [] => some s
  | s, t :: ts => (parseSign d s t).bind fun s' => parseSigns d s' ts

/-- The pattern that the signs stand for, `none` when they are not valid. -/
def patternOf (d : Dialect) (ts : List Sign) : Option (Pattern Char) :=
  (parseSigns d ⟨.start, []⟩ ts).bind fun s =>
    match s.outer with
    | [] => some s.current.pattern
    | _ :: _ => none

/-- `name SIMILAR TO s`; nothing is similar to a pattern that is not valid. -/
def SimilarTo (d : Dialect) (s name : List Char) : Prop :=
  ∃ ts, signs s = some ts ∧
    if .beyond ∈ ts then d.beyond s name
    else ∃ p, patternOf d ts = some p ∧ name ∈ p.language

/-! ## Costs -/

/-- The number of characters that a sign asks for. -/
def Sign.cost : Sign → Nat
  | .letter _ => 1
  | .any => 1
  | .anyWord => 0
  | .bracket _ => 1
  | .bar => 0
  | .opening => 0
  | .closing => 0
  | .times _ _ => 0
  | .question => 0
  | .beyond => 0

def signsCost : List Sign → Nat
  | [] => 0
  | t :: ts => t.cost + signsCost ts

@[simp] theorem signsCost_nil : signsCost [] = 0 := rfl

@[simp] theorem signsCost_cons (t : Sign) (ts : List Sign) :
    signsCost (t :: ts) = t.cost + signsCost ts := rfl

@[simp] theorem signsCost_append (ts ts' : List Sign) :
    signsCost (ts ++ ts') = signsCost ts + signsCost ts' := by
  induction ts with
  | nil => simp
  | cons t ts ih => rw [List.cons_append, signsCost_cons, signsCost_cons, ih, Nat.add_assoc]

/-- A sign with a meaning of its own that asks for no second copy of an atom. -/
def Sign.Light : Sign → Prop
  | .times least _ => least ≤ 1
  | .beyond => False
  | _ => True

theorem Branches.cost_push (b : Branches) (last : Last) :
    (b.push last).pattern.cost ≤ b.pattern.cost + last.pattern.cost := by
  simp only [push, pattern, Pattern.cost]
  omega

theorem Branches.cost_quantify {b b' : Branches} {least : Nat} {most : Option Nat}
    (h : b.quantify least most = some b') (hleast : least ≤ 1) :
    b'.pattern.cost ≤ b.pattern.cost := by
  unfold quantify at h
  split at h
  case h_1 p hlast =>
    obtain rfl := Option.some.inj h
    have hcopies : least * p.cost ≤ p.cost := by
      simpa using Nat.mul_le_mul_right p.cost hleast
    simp only [pattern, hlast, Last.pattern, Pattern.cost]
    omega
  case h_2 => exact nomatch h

theorem Branches.cost_question {b b' : Branches} (h : b.question = some b') :
    b'.pattern.cost ≤ b.pattern.cost := by
  unfold question at h
  split at h
  · obtain rfl := Option.some.inj h
    exact b.cost_push .nothing
  · exact cost_quantify h (Nat.zero_le _)

/-- The cost of the branches around the open parentheses. -/
def outerCost : List Branches → Nat
  | [] => 0
  | b :: outer => b.pattern.cost + outerCost outer

def ParseState.cost (s : ParseState) : Nat := s.current.pattern.cost + outerCost s.outer

theorem ParseState.cost_atom (s : ParseState) (S : Char → Bool) : (s.atom S).cost ≤ s.cost + 1 := by
  have hpush := s.current.cost_push (.atom (.set S))
  simp only [Last.pattern, Pattern.cost] at hpush
  simp only [atom, cost]
  omega

theorem parseSign_cost {d : Dialect} {s s' : ParseState} {t : Sign}
    (h : parseSign d s t = some s') (ht : t.Light) : s'.cost ≤ s.cost + t.cost := by
  cases t with
  | letter c =>
    obtain rfl := Option.some.inj h
    exact s.cost_atom _
  | any =>
    obtain rfl := Option.some.inj h
    exact s.cost_atom _
  | anyWord =>
    obtain rfl := Option.some.inj h
    have hpush := s.current.cost_push (.quantified .anyWord)
    simp only [Last.pattern, Pattern.anyWord, Pattern.cost] at hpush
    simp only [ParseState.cost, Sign.cost, Pattern.anyWord]
    omega
  | bracket content =>
    obtain ⟨S, -, rfl⟩ := Option.map_eq_some_iff.mp h
    exact s.cost_atom S
  | bar =>
    obtain rfl := Option.some.inj h
    simp only [ParseState.cost, Branches.pattern, Last.pattern, Pattern.cost]
    omega
  | opening =>
    obtain rfl := Option.some.inj h
    simp only [ParseState.cost, outerCost, Branches.start, Branches.pattern, Last.pattern,
      Pattern.cost]
    omega
  | closing =>
    simp only [parseSign] at h
    split at h
    · exact nomatch h
    · rename_i b outer houter
      obtain rfl := Option.some.inj h
      have hpush := b.cost_push (.atom s.current.pattern)
      simp only [Last.pattern] at hpush
      simp only [ParseState.cost, houter, outerCost]
      omega
  | times least most =>
    obtain ⟨b, hb, rfl⟩ := Option.map_eq_some_iff.mp h
    have hcost := Branches.cost_quantify hb ht
    simp only [ParseState.cost]
    omega
  | question =>
    obtain ⟨b, hb, rfl⟩ := Option.map_eq_some_iff.mp h
    have hcost := Branches.cost_question hb
    simp only [ParseState.cost]
    omega
  | beyond => exact nomatch h

theorem parseSigns_cost {d : Dialect} {s s' : ParseState} {ts : List Sign}
    (h : parseSigns d s ts = some s') (hts : ∀ t ∈ ts, t.Light) :
    s'.cost ≤ s.cost + signsCost ts := by
  induction ts generalizing s with
  | nil =>
    obtain rfl := Option.some.inj h
    exact le_rfl
  | cons t ts ih =>
    obtain ⟨s₁, hstep, hrest⟩ := Option.bind_eq_some_iff.mp h
    obtain ⟨ht, hts⟩ := List.forall_mem_cons.mp hts
    have hfirst := parseSign_cost hstep ht
    have hlast := ih hrest hts
    rw [signsCost_cons]
    omega

theorem patternOf_cost {d : Dialect} {ts : List Sign} {p : Pattern Char} (h : patternOf d ts = some p)
    (hts : ∀ t ∈ ts, t.Light) : p.cost ≤ signsCost ts := by
  obtain ⟨s, hs, hp⟩ := Option.bind_eq_some_iff.mp h
  have hcost := parseSigns_cost hs hts
  have hstart : (⟨.start, []⟩ : ParseState).cost = 0 := rfl
  split at hp
  · obtain rfl := Option.some.inj hp
    simp only [ParseState.cost] at hcost hstart
    omega
  · exact nomatch hp

/-- What a mode may still supply without a further character. -/
def SignMode.credit : SignMode → Nat
  | .escape => 1
  | _ => 0

theorem boundSign_cost {least : Nat} {most : Option Nat} {t : Sign}
    (h : boundSign least most = some t) : t.cost = 0 := by
  unfold boundSign at h
  split at h <;> split at h
  · obtain rfl := Option.some.inj h
    rfl
  · exact nomatch h
  · obtain rfl := Option.some.inj h
    rfl
  · exact nomatch h

theorem singleSign_cost (c : Char) : (singleSign c).cost ≤ 1 := by
  unfold singleSign
  split_ifs <;> simp [Sign.cost]

theorem signStep_cost {m : SignMode} {c : Char} {s : List Char} {r : SignMode × List Sign}
    (h : signStep m c s = some r) : signsCost r.2 + r.1.credit ≤ m.credit + 1 := by
  cases m with
  | ground =>
    obtain rfl := Option.some.inj h
    have hsingle := singleSign_cost c
    unfold openSign
    split_ifs <;> simp [SignMode.credit, hsingle]
  | escape =>
    simp only [signStep] at h
    split at h <;> obtain rfl := Option.some.inj h <;> simp [SignMode.credit, Sign.cost]
  | bracket mode acc =>
    simp only [signStep] at h
    split at h
    · obtain rfl := Option.some.inj h
      exact Nat.zero_le _
    · split at h <;> obtain rfl := Option.some.inj h <;> simp [SignMode.credit, Sign.cost]
  | least n =>
    simp only [signStep] at h
    split_ifs at h
    · obtain rfl := Option.some.inj h
      exact Nat.zero_le _
    · obtain rfl := Option.some.inj h
      exact Nat.zero_le _
    · obtain ⟨t, ht, rfl⟩ := Option.map_eq_some_iff.mp h
      simp [SignMode.credit, boundSign_cost ht]
  | most least n =>
    simp only [signStep] at h
    split_ifs at h
    · obtain rfl := Option.some.inj h
      exact Nat.zero_le _
    · obtain ⟨t, ht, rfl⟩ := Option.map_eq_some_iff.mp h
      simp [SignMode.credit, boundSign_cost ht]
  | beyond =>
    obtain rfl := Option.some.inj h
    exact Nat.zero_le _

/-- The text ends there, or with `%`. -/
def Ending (e : List Char) : Prop := e = [] ∨ e = ['%']

theorem Ending.not_isDigit {e : List Char} (he : Ending e) : ∀ c ∈ e.head?, ¬ c.isDigit := by
  rcases he with rfl | rfl <;> simp

theorem BracketMode.next_percent (m : BracketMode) : (m.next '%').isSome := by
  cases m with
  | inner delimiter =>
    simp only [next]
    split <;> rfl
  | ending delimiter =>
    simp only [next]
    split_ifs <;> rfl
  | _ => rfl

theorem signsFrom_ending_cost {m : SignMode} {e : List Char} {ts : List Sign} (he : Ending e)
    (h : signsFrom m e = some ts) : signsCost ts ≤ m.credit := by
  rcases he with rfl | rfl
  · cases m with
    | bracket mode acc => exact nomatch h
    | least n => exact nomatch h
    | most least n => exact nomatch h
    | _ => exact Option.some.inj h ▸ Nat.zero_le _
  · cases m with
    | bracket mode acc =>
      obtain ⟨mode', hmode⟩ := Option.isSome_iff_exists.mp mode.next_percent
      simp [signsFrom, signStep, hmode, signEnd] at h
    | least n => simp [signsFrom, signStep] at h
    | most least n => simp [signsFrom, signStep] at h
    | _ => exact Option.some.inj h ▸ by decide

theorem signsFrom_cost {m : SignMode} {s e : List Char} {ts : List Sign} (he : Ending e)
    (h : signsFrom m (s ++ e) = some ts) : signsCost ts ≤ s.length + m.credit := by
  induction s generalizing m ts with
  | nil => simpa using signsFrom_ending_cost he h
  | cons c s ih =>
    obtain ⟨r, hstep, hrest⟩ := Option.bind_eq_some_iff.mp h
    obtain ⟨ts', hts', rfl⟩ := Option.map_eq_some_iff.mp hrest
    have hfirst := signStep_cost hstep
    have hlast := ih hts'
    rw [signsCost_append, List.length_cons]
    omega

/-! ## Texts without operators -/

def operators : List Char := ['%', '|', '*', '+', '?', '(', ')', '[', '\\']

/-- No operator stands in the text, and no brace that opens a bound. -/
def Unmarked (s : List Char) : Prop :=
  (∀ c ∈ s, c ∉ operators) ∧ ∀ c, c.isDigit → ¬['{', c] <:+: s

theorem unmarked_nil : Unmarked [] := by simp [Unmarked]

theorem unmarked_cons_iff {c : Char} {s : List Char} :
    Unmarked (c :: s) ↔ (c ∉ operators ∧ ¬OpensBound c s) ∧ Unmarked s := by
  have hbound : (∀ d, d.isDigit → ¬['{', d] <:+: c :: s) ↔
      ¬OpensBound c s ∧ ∀ d, d.isDigit → ¬['{', d] <:+: s := by
    simp only [List.infix_cons_iff, not_or, OpensBound]
    constructor
    · intro h
      refine ⟨?_, fun d hd => (h d hd).2⟩
      rintro ⟨rfl, d, hd, hdigit⟩
      obtain ⟨t, rfl⟩ : ∃ t, s = d :: t := ⟨s.tail, (List.eq_cons_of_mem_head? hd)⟩
      exact (h d hdigit).1 (by simp)
    · rintro ⟨hopen, h⟩ d hdigit
      refine ⟨fun hprefix => hopen ?_, h d hdigit⟩
      obtain ⟨t, ht⟩ := hprefix
      obtain ⟨rfl, rfl⟩ := List.cons_eq_cons.mp ht
      exact ⟨rfl, d, rfl, hdigit⟩
  rw [Unmarked, List.forall_mem_cons, hbound, Unmarked]
  tauto

instance decidableUnmarked : (s : List Char) → Decidable (Unmarked s)
  | [] => isTrue unmarked_nil
  | _ :: s =>
      have : Decidable (Unmarked s) := decidableUnmarked s
      decidable_of_iff _ unmarked_cons_iff.symm

/-- How a text without operators is read. -/
def spell (c : Char) : Sign := if c = '_' then .any else .letter c

theorem openSign_of_unmarked {c : Char} {s : List Char} (hc : c ∉ operators)
    (hs : ¬OpensBound c s) : openSign c s = (.ground, [spell c]) := by
  simp only [operators, List.mem_cons, List.not_mem_nil, or_false, not_or] at hc
  simp [openSign, singleSign, spell, hs, hc]

theorem opensBound_append_iff {c : Char} {s r : List Char} (hr : ∀ d ∈ r.head?, ¬ d.isDigit) :
    OpensBound c (s ++ r) ↔ OpensBound c s := by
  cases s with
  | nil => simpa [OpensBound] using fun _ => hr
  | cons d s => rfl

theorem signsFrom_unmarked {s r : List Char} (hs : Unmarked s)
    (hr : ∀ d ∈ r.head?, ¬ d.isDigit) :
    signsFrom .ground (s ++ r) = (signsFrom .ground r).map fun ts => s.map spell ++ ts := by
  induction s with
  | nil => simp
  | cons c s ih =>
    obtain ⟨⟨hc, hopen⟩, hs⟩ := unmarked_cons_iff.mp hs
    have hopen' : ¬OpensBound c (s ++ r) := (opensBound_append_iff hr).not.mpr hopen
    rw [List.cons_append, signsFrom, signStep, Option.bind_some, openSign_of_unmarked hc hopen',
      ih hs, Option.map_map]
    rfl

private theorem openSign_operator {c : Char} (s : List Char) (hc : c ∈ operators) (hne : c ≠ '\\') :
    signsCost (openSign c s).2 + (openSign c s).1.credit = 0 := by
  simp only [operators, List.mem_cons, List.not_mem_nil, or_false, hne] at hc
  rcases hc with rfl | rfl | rfl | rfl | rfl | rfl | rfl | rfl <;>
    simp [openSign, OpensBound, singleSign, SignMode.credit, Sign.cost]

private theorem signStep_escape_cost {c : Char} {s : List Char} {r : SignMode × List Sign}
    (h : signStep .escape c s = some r) : signsCost r.2 + r.1.credit ≤ 1 := by
  simp only [signStep] at h
  split at h <;> obtain rfl := Option.some.inj h <;> simp [SignMode.credit, Sign.cost]

/-- A text with operators asks for fewer characters than it has, unless its last one is a
backslash that turns the `%` behind it into a letter. -/
theorem signsCost_lt {s e : List Char} {ts : List Sign} (he : Ending e) (hs : ¬Unmarked s)
    (h : signsFrom .ground (s ++ e) = some ts) :
    signsCost ts < s.length ∨ ∃ t, Unmarked t ∧ s = t ++ ['\\'] ∧ e = ['%'] := by
  induction s generalizing ts with
  | nil => exact absurd unmarked_nil hs
  | cons c s ih =>
    rw [List.cons_append, signsFrom, signStep, Option.bind_some] at h
    obtain ⟨ts', hts', rfl⟩ := Option.map_eq_some_iff.mp h
    have hbound := opensBound_append_iff (c := c) (s := s) he.not_isDigit
    rw [signsCost_append, List.length_cons]
    by_cases hc : c ∈ operators
    case pos =>
      by_cases hslash : c = '\\'
      case neg =>
        have hcost := signsFrom_cost he hts'
        have hnone := openSign_operator (s ++ e) hc hslash
        exact Or.inl (by omega)
      case pos =>
        subst hslash
        have hopen : openSign '\\' (s ++ e) = (.escape, []) := rfl
        rw [hopen] at hts' ⊢
        cases s with
        | nil =>
          rcases he with rfl | rfl
          · obtain rfl := Option.some.inj hts'
            exact Or.inl (by decide)
          · exact Or.inr ⟨[], unmarked_nil, rfl, rfl⟩
        | cons d s =>
          obtain ⟨r, hstep, hrest⟩ := Option.bind_eq_some_iff.mp hts'
          obtain ⟨ts'', hts'', rfl⟩ := Option.map_eq_some_iff.mp hrest
          have hfirst := signStep_escape_cost hstep
          have hlast := signsFrom_cost he hts''
          rw [signsCost_append, signsCost_nil, List.length_cons]
          exact Or.inl (by omega)
    case neg =>
      by_cases hopen : OpensBound c s
      case pos =>
        have hleast : openSign c (s ++ e) = (.least 0, []) := by
          obtain rfl := hopen.1
          simp [openSign, hbound.mpr hopen]
        rw [hleast] at hts' ⊢
        have hcost := signsFrom_cost he hts'
        rw [signsCost_nil]
        exact Or.inl (by simpa [SignMode.credit, Nat.lt_succ_iff] using hcost)
      case neg =>
        have hs' : ¬Unmarked s := fun hs' => hs (unmarked_cons_iff.mpr ⟨⟨hc, hopen⟩, hs'⟩)
        rw [openSign_of_unmarked hc (hbound.not.mpr hopen)] at hts' ⊢
        have hspell : signsCost [spell c] = 1 := by
          unfold spell
          split <;> rfl
        rw [hspell]
        rcases ih hs' hts' with hlt | ⟨t, ht, rfl, hpercent⟩
        · exact Or.inl (by omega)
        · refine Or.inr ⟨c :: t, unmarked_cons_iff.mpr ⟨⟨hc, ?_⟩, ht⟩, rfl, hpercent⟩
          rwa [opensBound_append_iff (by simp)] at hopen

/-! ## What a text without operators matches -/

/-- An underscore stands for any character, the others for themselves. -/
def Stands (c x : Char) : Prop := c = '_' ∨ x = c

/-- The words of one character that another one stands for. -/
def standing (c : Char) : Language Char := {w | ∃ x, Stands c x ∧ w = [x]}

/-- The words that a text without operators spells. -/
def spelled (s : List Char) : Language Char := {w | List.Forall₂ Stands s w}

theorem mem_spelled {s w : List Char} : w ∈ spelled s ↔ List.Forall₂ Stands s w := Iff.rfl

theorem spelled_nil : spelled [] = 1 := by
  ext w
  rw [mem_spelled, List.forall₂_nil_left_iff, Language.mem_one]

theorem spelled_cons (c : Char) (s : List Char) :
    spelled (c :: s) = standing c * spelled s := by
  ext w
  rw [mem_spelled, List.forall₂_cons_left_iff, Language.mem_mul]
  constructor
  · rintro ⟨x, v, hx, hv, rfl⟩
    exact ⟨[x], ⟨x, hx, rfl⟩, v, hv, rfl⟩
  · rintro ⟨_, ⟨x, hx, rfl⟩, v, hv, rfl⟩
    exact ⟨x, v, hx, hv, rfl⟩

theorem self_mem_spelled (s : List Char) : s ∈ spelled s :=
  List.forall₂_same.mpr fun _ _ => Or.inr rfl

theorem mem_spelled_iff_eq {s w : List Char} (hs : '_' ∉ s) : w ∈ spelled s ↔ w = s := by
  constructor
  · intro h
    induction h with
    | nil => rfl
    | cons hx _ ih =>
      obtain ⟨hc, hrest⟩ := not_or.mp (List.mem_cons.not.mp hs)
      rcases hx with rfl | rfl
      · exact absurd rfl hc
      · rw [ih hrest]
  · rintro rfl
    exact self_mem_spelled w

theorem exists_mem_spelled_ne {s : List Char} (x : Char) (hx : x ≠ '_') (hs : '_' ∈ s) :
    ∃ w ∈ spelled s, w.length = s.length ∧ w ≠ s ∧ ∀ c ∈ w, c = x ∨ c ∈ s := by
  refine ⟨s.map fun c => if c = '_' then x else c, ?_, List.length_map _, ?_, ?_⟩
  · refine List.forall₂_map_right_iff.mpr (List.forall₂_same.mpr fun c _ => ?_)
    by_cases hc : c = '_'
    · exact Or.inl hc
    · exact Or.inr (if_neg hc)
  · intro heq
    rw [← heq] at hs
    obtain ⟨c, -, hc⟩ := List.mem_map.mp hs
    split_ifs at hc with hunder
    · exact hx hc
    · exact hunder hc
  · intro c hc
    obtain ⟨b, hb, rfl⟩ := List.mem_map.mp hc
    split_ifs
    · exact Or.inl rfl
    · exact Or.inr hb

theorem Branches.language_push {b : Branches} (hb : b.front = .never) (last : Last) :
    (b.push last).pattern.language = b.pattern.language * last.pattern.language := by
  simp only [push, pattern, hb, Pattern.language, zero_add]

theorem parseSign_spell (d : Dialect) (b : Branches) (c : Char) :
    ∃ last : Last, parseSign d ⟨b, []⟩ (spell c) = some ⟨b.push last, []⟩ ∧
      last.pattern.language = standing c := by
  unfold spell
  split
  · rename_i hc
    refine ⟨.atom .any, rfl, ?_⟩
    ext w
    exact exists_congr fun x => and_congr_left fun _ => by simp [Stands, hc]
  · rename_i hc
    refine ⟨.atom (.set (· == c)), rfl, ?_⟩
    ext w
    exact exists_congr fun x => and_congr_left fun _ => by simp [Stands, hc]

theorem parseSigns_spelled (d : Dialect) {b : Branches} (hb : b.front = .never) (s : List Char)
    (ts : List Sign) :
    ∃ b' : Branches, parseSigns d ⟨b, []⟩ (s.map spell ++ ts) = parseSigns d ⟨b', []⟩ ts ∧
      b'.front = .never ∧ b'.pattern.language = b.pattern.language * spelled s := by
  induction s generalizing b with
  | nil => exact ⟨b, rfl, hb, by rw [spelled_nil, mul_one]⟩
  | cons c s ih =>
    obtain ⟨last, hstep, hlast⟩ := parseSign_spell d b c
    obtain ⟨b', hrest, hb', hlanguage⟩ := ih (b := b.push last) hb
    refine ⟨b', ?_, hb', ?_⟩
    · rw [List.map_cons, List.cons_append, parseSigns, hstep, Option.bind_some, hrest]
    · rw [hlanguage, Branches.language_push hb, hlast, spelled_cons, mul_assoc]

theorem Branches.language_start : Branches.start.pattern.language = 1 := by
  simp [start, pattern, Last.pattern, Pattern.language]

theorem patternOf_spelled (d : Dialect) (s : List Char) : ∃ p, patternOf d (s.map spell) = some p ∧
    p.language = spelled s := by
  obtain ⟨b, hparse, -, hlanguage⟩ := parseSigns_spelled d (b := .start) rfl s []
  rw [List.append_nil] at hparse
  refine ⟨b.pattern, ?_, ?_⟩
  · rw [patternOf, hparse]
    rfl
  · rw [hlanguage, Branches.language_start, one_mul]

theorem patternOf_spelled_concat (d : Dialect) (s : List Char) {t : Sign} (last : Last)
    (ht : ∀ b, parseSign d ⟨b, []⟩ t = some ⟨b.push last, []⟩) :
    ∃ p, patternOf d (s.map spell ++ [t]) = some p ∧
      p.language = spelled s * last.pattern.language := by
  obtain ⟨b, hparse, hb, hlanguage⟩ := parseSigns_spelled d (b := .start) rfl s [t]
  refine ⟨(b.push last).pattern, ?_, ?_⟩
  · rw [patternOf, hparse, parseSigns, ht]
    rfl
  · rw [Branches.language_push hb, hlanguage, Branches.language_start, one_mul]

private theorem spell_ne_beyond (s : List Char) : .beyond ∉ s.map spell := by
  intro h
  obtain ⟨c, -, hc⟩ := List.mem_map.mp h
  unfold spell at hc
  split at hc <;> exact nomatch hc

theorem similarTo_iff_of_pattern {d : Dialect} {s name : List Char} {ts : List Sign}
    {p : Pattern Char} (hts : signs s = some ts) (hbeyond : .beyond ∉ ts)
    (hp : patternOf d ts = some p) : SimilarTo d s name ↔ name ∈ p.language := by
  constructor
  · rintro ⟨ts', hts', h⟩
    obtain rfl := Option.some.inj (hts.symm.trans hts')
    rw [if_neg hbeyond] at h
    obtain ⟨p', hp', h⟩ := h
    obtain rfl := Option.some.inj (hp.symm.trans hp')
    exact h
  · intro h
    exact ⟨ts, hts, by rw [if_neg hbeyond]; exact ⟨p, hp, h⟩⟩

theorem similarTo_unmarked {d : Dialect} {s name : List Char} (hs : Unmarked s) :
    SimilarTo d s name ↔ name ∈ spelled s := by
  have hsigns : signs s = some (s.map spell) := by
    have h := signsFrom_unmarked (r := []) hs (by simp)
    rw [List.append_nil] at h
    simpa [signs, signsFrom, signEnd] using h
  obtain ⟨p, hp, hlanguage⟩ := patternOf_spelled d s
  rw [similarTo_iff_of_pattern hsigns (spell_ne_beyond s) hp, hlanguage]

theorem similarTo_percent {d : Dialect} {s name : List Char} (hs : Unmarked s) :
    SimilarTo d (s ++ ['%']) name ↔ ∃ w ∈ spelled s, w <+: name := by
  have hsigns : signs (s ++ ['%']) = some (s.map spell ++ [.anyWord]) := by
    have h := signsFrom_unmarked (r := ['%']) hs (by simp)
    exact h.trans rfl
  obtain ⟨p, hp, hlanguage⟩ :=
    patternOf_spelled_concat d s (t := .anyWord) (.quantified .anyWord) fun _ => rfl
  rw [similarTo_iff_of_pattern hsigns (by simpa using spell_ne_beyond s) hp, hlanguage,
    Language.mem_mul]
  constructor
  · rintro ⟨w, hw, v, -, rfl⟩
    exact ⟨w, hw, v, rfl⟩
  · rintro ⟨w, hw, v, rfl⟩
    exact ⟨w, hw, v, Pattern.mem_anyWord v, rfl⟩

theorem similarTo_escaped_percent {d : Dialect} {s name : List Char} (hs : Unmarked s) :
    SimilarTo d (s ++ ['\\', '%']) name ↔ ∃ w ∈ spelled s, name = w ++ ['%'] := by
  have hsigns : signs (s ++ ['\\', '%']) = some (s.map spell ++ [.letter '%']) := by
    have h := signsFrom_unmarked (r := ['\\', '%']) hs (by simp)
    exact h.trans rfl
  obtain ⟨p, hp, hlanguage⟩ :=
    patternOf_spelled_concat d s (t := .letter '%') (.atom (.set (· == '%'))) fun _ => rfl
  rw [similarTo_iff_of_pattern hsigns (by simpa using spell_ne_beyond s) hp, hlanguage,
    Language.mem_mul]
  constructor
  · rintro ⟨w, hw, v, ⟨c, hc, rfl⟩, rfl⟩
    exact ⟨w, hw, by rw [beq_iff_eq.mp hc]⟩
  · rintro ⟨w, hw, rfl⟩
    exact ⟨w, hw, ['%'], ⟨'%', rfl, rfl⟩, rfl⟩

/-! ## What a text with operators matches -/

/-- A pattern all of whose signs are light, as far as it is valid. -/
def Light (s : List Char) : Prop := ∀ ts ∈ signs s, ∀ t ∈ ts, t.Light

/-- When a light pattern matches anything of some kind, it matches something short of it. -/
theorem SimilarTo.exists_short {d : Dialect} {s name : List Char} (h : SimilarTo d s name)
    (hlight : Light s) (G : Char → Prop) (hG : ∀ c ∈ name, G c) :
    ∃ ts, signs s = some ts ∧ ∃ w, SimilarTo d s w ∧ (∀ c ∈ w, G c) ∧ w.length ≤ signsCost ts := by
  obtain ⟨ts, hts, hname⟩ := h
  have hts' : ∀ t ∈ ts, t.Light := hlight ts hts
  have hbeyond : .beyond ∉ ts := fun hmem => hts' _ hmem
  rw [if_neg hbeyond] at hname
  obtain ⟨p, hp, hname⟩ := hname
  obtain ⟨w, hw, hGw, hcost⟩ := p.exists_short G ⟨name, hname, hG⟩
  exact ⟨ts, hts, w, (similarTo_iff_of_pattern hts hbeyond hp).mpr hw, hGw,
    hcost.trans (patternOf_cost hp hts')⟩

/-- A light pattern with operators that matches anything of some kind matches something that is
shorter than the pattern is in front of its ending. -/
theorem SimilarTo.exists_shorter {d : Dialect} {s e name : List Char}
    (h : SimilarTo d (s ++ e) name) (hlight : Light (s ++ e)) (he : Ending e) (hs : ¬Unmarked s)
    (G : Char → Prop) (hG : ∀ c ∈ name, G c) :
    (∃ w, SimilarTo d (s ++ e) w ∧ (∀ c ∈ w, G c) ∧ w.length < s.length) ∨
      ∃ t, Unmarked t ∧ s = t ++ ['\\'] ∧ e = ['%'] := by
  obtain ⟨ts, hts, w, hw, hGw, hlength⟩ := h.exists_short hlight G hG
  rcases signsCost_lt he hs hts with hlt | hslash
  · exact Or.inl ⟨w, hw, hGw, hlength.trans_lt hlt⟩
  · exact Or.inr hslash

end Framework
