import Mathlib.Data.List.Infix
import Mathlib.Data.List.Basic

/-!
# The text of SQL commands

A command reaches the server as a NUL-terminated text, which its lexer cuts into words, symbols
and string constants. The lexer below follows PostgreSQL with `standard_conforming_strings` on:
`''` inside a constant stands for one quote, constants separated by white space with a newline
are one constant, and `--` starts a comment. Block comments, dollar quotes and quoted
identifiers are left out. The main result says when a command assembled from fixed pieces
and quoted fields is read as it was meant.
-/

namespace Framework

abbrev Text := List Char

/-- A lexical token; a string constant carries its decoded content. -/
inductive Token
  | word (w : Text)
  | str (s : Text)
  | sym (c : Char)
  deriving DecidableEq, Repr

/-- What the lexer has read of the token it is in. -/
inductive LexMode
  | ground
  | word (acc : Text)
  | dash
  | comment
  | quoted (acc : Text)
  | closing (acc : Text)
  | gap (acc : Text) (newline : Bool)
  deriving DecidableEq, Repr

def isNewline (c : Char) : Bool := c == '\n' || c == '\r'

def isSpace (c : Char) : Bool := c == ' ' || c == '\t' || c == '\x0c' || isNewline c

def isWordChar (c : Char) : Bool := c.isAlphanum || c == '_' || decide (128 ≤ c.toNat)

/-- A character read between two tokens. -/
def openToken (c : Char) : LexMode × List Token :=
  if c = '\'' then (.quoted [], [])
  else if isSpace c then (.ground, [])
  else if isWordChar c then (.word [c], [])
  else if c = '-' then (.dash, [])
  else (.ground, [.sym c])

/-- The pending token ends before the character that is read. -/
def emitThen (t : Token) (r : LexMode × List Token) : LexMode × List Token := (r.1, t :: r.2)

def lexStep : LexMode → Char → LexMode × List Token
  | .ground, c => openToken c
  | .word acc, c =>
      if isWordChar c then (.word (acc ++ [c]), []) else emitThen (.word acc) (openToken c)
  | .dash, c => if c = '-' then (.comment, []) else emitThen (.sym '-') (openToken c)
  | .comment, c => if isNewline c then (.ground, []) else (.comment, [])
  | .quoted acc, c => if c = '\'' then (.closing acc, []) else (.quoted (acc ++ [c]), [])
  | .closing acc, c =>
      if c = '\'' then (.quoted (acc ++ ['\'']), [])
      else if isSpace c then (.gap acc (isNewline c), [])
      else emitThen (.str acc) (openToken c)
  | .gap acc newline, c =>
      if c = '\'' then if newline then (.quoted acc, []) else (.quoted [], [.str acc])
      else if isSpace c then (.gap acc (newline || isNewline c), [])
      else emitThen (.str acc) (openToken c)

/-- The tokens that the end of the command completes; an open constant is an error. -/
def lexFinish : LexMode → Option (List Token)
  | .ground => some []
  | .word acc => some [.word acc]
  | .dash => some [.sym '-']
  | .comment => some []
  | .quoted _ => none
  | .closing acc => some [.str acc]
  | .gap acc _ => some [.str acc]

def lexRun : LexMode → Text → LexMode × List Token
  | m, [] => (m, [])
  | m, c :: cs => ((lexRun (lexStep m c).1 cs).1, (lexStep m c).2 ++ (lexRun (lexStep m c).1 cs).2)

def lexFrom : LexMode → Text → Option (List Token)
  | m, [] => lexFinish m
  | m, c :: cs => (lexFrom (lexStep m c).1 cs).map fun ts => (lexStep m c).2 ++ ts

/-- What the server sees of a text that is handed over as a C string. -/
def serverText (s : Text) : Text := s.takeWhile (· ≠ '\x00')

/-- The tokens of a command, `none` when a string constant is left open. -/
def lex (s : Text) : Option (List Token) := lexFrom .ground (serverText s)

/-- The contents of the string constants, in order. -/
def literals (ts : List Token) : List Text :=
  ts.filterMap fun
    | .str s => some s
    | _ => none

/-- The tokens without the contents of the string constants. -/
def shape (ts : List Token) : List Token :=
  ts.map fun
    | .str _ => .str []
    | t => t

theorem lexFrom_append (m : LexMode) (as bs : Text) :
    lexFrom m (as ++ bs) =
      (lexFrom (lexRun m as).1 bs).map fun ts => (lexRun m as).2 ++ ts := by
  induction as generalizing m with
  | nil => simp [lexRun]
  | cons a as ih =>
    rw [List.cons_append, lexFrom, ih, Option.map_map]
    simp only [lexRun, Function.comp_def, List.append_assoc]

theorem serverText_append {s : Text} (hs : '\x00' ∉ s) (t : Text) :
    serverText (s ++ t) = s ++ serverText t := by
  apply List.takeWhile_append_of_pos
  intro c hc
  simp only [ne_eq, decide_eq_true_eq]
  rintro rfl
  exact hs hc

theorem serverText_cons {c : Char} (hc : c ≠ '\x00') (t : Text) :
    serverText (c :: t) = c :: serverText t := by
  simp [serverText, hc]

/-! ## Safe fields -/

/-- A field that keeps its meaning between two quotes. -/
def SafeLiteral (f : Text) : Prop := ∀ c ∈ f, c ≠ '\'' ∧ c ≠ '\x00'

instance (f : Text) : Decidable (SafeLiteral f) := List.decidableBAll _ f

theorem SafeLiteral.nul_notMem {f : Text} (hf : SafeLiteral f) : '\x00' ∉ f :=
  fun h => (hf _ h).2 rfl

theorem SafeLiteral.cons_iff {c : Char} {f : Text} :
    SafeLiteral (c :: f) ↔ (c ≠ '\'' ∧ c ≠ '\x00') ∧ SafeLiteral f := by
  simp [SafeLiteral]

theorem lexRun_quoted {f : Text} (hf : SafeLiteral f) (acc : Text) :
    lexRun (.quoted acc) f = (.quoted (acc ++ f), []) := by
  induction f generalizing acc with
  | nil => simp [lexRun]
  | cons c f ih =>
    obtain ⟨hc, hf⟩ := SafeLiteral.cons_iff.mp hf
    simp [lexRun, lexStep, hc.1, ih hf]

theorem lexFrom_quoted_space {c : Char} (hc : c ≠ '\'') (hs : ¬ isSpace c) (acc t : Text) :
    lexFrom (.quoted acc) ('\'' :: ' ' :: c :: t) =
      (lexFrom .ground (c :: t)).map fun ts => .str acc :: ts := by
  have hspace : isSpace ' ' = true := rfl
  simp [lexFrom, lexStep, hc, hs, hspace, emitThen, Function.comp_def]

theorem exists_of_not_safeLiteral {f : Text} (hf : ¬ SafeLiteral f) :
    ∃ u x v, f = u ++ x :: v ∧ SafeLiteral u ∧ (x = '\'' ∨ x = '\x00') := by
  induction f with
  | nil => exact absurd (fun _ h => absurd h (List.not_mem_nil)) hf
  | cons c f ih =>
    by_cases hc : c ≠ '\'' ∧ c ≠ '\x00'
    · have hf' : ¬ SafeLiteral f := fun h => hf (SafeLiteral.cons_iff.mpr ⟨hc, h⟩)
      obtain ⟨u, x, v, rfl, hu, hx⟩ := ih hf'
      exact ⟨c :: u, x, v, rfl, SafeLiteral.cons_iff.mpr ⟨hc, hu⟩, hx⟩
    · refine ⟨[], c, f, rfl, fun _ h => absurd h (List.not_mem_nil), ?_⟩
      by_contra hne
      exact hc (not_or.mp hne)

/-! ## The constant that is being read -/

/-- The content read so far of the constant that the lexer is in or has just left. -/
def LexMode.literal : LexMode → Option Text
  | .quoted acc => some acc
  | .closing acc => some acc
  | .gap acc _ => some acc
  | _ => none

private theorem emitThen_first {t t' : Token} {r : LexMode × List Token} {s : Text}
    {ts : List Token}
    (h : (lexFrom (emitThen t r).1 s).map (fun us => (emitThen t r).2 ++ us) = some (t' :: ts)) :
    t = t' := by
  obtain ⟨us, -, hus⟩ := Option.map_eq_some_iff.mp h
  exact (List.cons.inj hus).1

theorem lexStep_literal {m : LexMode} {acc : Text} (hm : m.literal = some acc) (a : Char) :
    (∃ m', lexStep m a = (m', []) ∧ m'.literal = some acc ∧ (a = '\'' ∨ isSpace a)) ∨
    lexStep m a = (.quoted (acc ++ [a]), []) ∨
    ∃ r, lexStep m a = emitThen (.str acc) r := by
  cases m with
  | ground | word | dash | comment => simp [LexMode.literal] at hm
  | quoted acc' =>
    obtain rfl : acc' = acc := by simpa [LexMode.literal] using hm
    by_cases ha : a = '\''
    · exact Or.inl ⟨.closing acc', by simp [lexStep, ha], rfl, Or.inl ha⟩
    · exact Or.inr (Or.inl (by simp [lexStep, ha]))
  | closing acc' =>
    obtain rfl : acc' = acc := by simpa [LexMode.literal] using hm
    by_cases ha : a = '\''
    · exact Or.inr (Or.inl (by simp [lexStep, ha]))
    by_cases hs : isSpace a
    · exact Or.inl ⟨.gap acc' (isNewline a), by simp [lexStep, ha, hs], rfl, Or.inr hs⟩
    · exact Or.inr (Or.inr ⟨openToken a, by simp [lexStep, ha, hs]⟩)
  | gap acc' newline =>
    obtain rfl : acc' = acc := by simpa [LexMode.literal] using hm
    by_cases ha : a = '\''
    · cases newline with
      | true => exact Or.inl ⟨.quoted acc', by simp [lexStep, ha], rfl, Or.inl ha⟩
      | false => exact Or.inr (Or.inr ⟨(.quoted [], []), by simp [lexStep, ha, emitThen]⟩)
    by_cases hs : isSpace a
    · exact Or.inl ⟨.gap acc' (newline || isNewline a), by simp [lexStep, ha, hs], rfl, Or.inr hs⟩
    · exact Or.inr (Or.inr ⟨openToken a, by simp [lexStep, ha, hs]⟩)

theorem lexFrom_literal_prefix {m : LexMode} {acc s : Text} {t : Token} {ts : List Token}
    (hm : m.literal = some acc) (h : lexFrom m s = some (t :: ts)) :
    ∃ g, t = .str g ∧ acc <+: g := by
  induction s generalizing m acc with
  | nil =>
    cases m <;> simp_all [lexFrom, lexFinish, LexMode.literal] <;>
      exact ⟨acc, h.1.symm, List.prefix_rfl⟩
  | cons c s ih =>
    rw [lexFrom] at h
    rcases lexStep_literal hm c with ⟨m', hstep, hm', -⟩ | hstep | ⟨r, hstep⟩
    · simp only [hstep, List.nil_append, Option.map_id'] at h
      exact ih hm' h
    · simp only [hstep, List.nil_append, Option.map_id'] at h
      obtain ⟨g, hg, hp⟩ := ih rfl h
      exact ⟨g, hg, (List.prefix_append acc [c]).trans hp⟩
    · rw [hstep] at h
      exact ⟨acc, (emitThen_first h).symm, List.prefix_rfl⟩

private theorem head_of_prefix_append {acc y z : Text} {c : Char} (hy : y ≠ [])
    (h : acc ++ [c] <+: acc ++ y ++ z) : ∃ y', y = c :: y' := by
  rw [List.append_assoc, List.prefix_append_right_inj] at h
  cases y with
  | nil => exact absurd rfl hy
  | cons d y =>
    obtain ⟨rfl, -⟩ := List.cons_prefix_cons.mp h
    exact ⟨y, rfl⟩

private theorem ne_append_of_ne_nil {acc y z : Text} (hy : y ≠ []) : acc ≠ acc ++ y ++ z := by
  intro h
  have hlen := congrArg List.length h
  have hpos := List.length_pos_iff.mpr hy
  simp only [List.length_append] at hlen
  omega

private theorem emitThen_ne {acc y z s : Text} {r : LexMode × List Token} {ts : List Token}
    (hy : y ≠ []) :
    (lexFrom (emitThen (.str acc) r).1 s).map (fun us => (emitThen (.str acc) r).2 ++ us) ≠
      some (.str (acc ++ y ++ z) :: ts) :=
  fun h => ne_append_of_ne_nil hy (Token.str.inj (emitThen_first h))

private theorem ne_of_read {m : LexMode} {acc y z s read : Text} {ts : List Token}
    (hm : m.literal = some (acc ++ read)) (hread : ¬read <+: y ++ z) :
    lexFrom m s ≠ some (.str (acc ++ y ++ z) :: ts) := by
  intro h
  obtain ⟨g, hg, hp⟩ := lexFrom_literal_prefix hm h
  obtain rfl := Token.str.inj hg
  rw [List.append_assoc, List.prefix_append_right_inj] at hp
  exact hread hp

private theorem lexFrom_ne_at_end {m : LexMode} {acc y rest : Text} {c : Char} {ts : List Token}
    (hm : m.literal = some acc) (hy : y ≠ []) (hyc : ∀ x ∈ y, x = '\'' ∨ isSpace x)
    (hc : c ≠ '\'') (hs : ¬ isSpace c) :
    lexFrom m ('\'' :: c :: rest) ≠ some (.str (acc ++ y ++ []) :: ts) := by
  have hcy : c ∉ y := fun hmem => (hyc c hmem).elim hc hs
  intro h
  rw [lexFrom] at h
  rcases lexStep_literal hm '\'' with ⟨m', hstep, hm', -⟩ | hstep | ⟨r, hstep⟩
  · simp only [hstep, List.nil_append, Option.map_id', lexFrom] at h
    rcases lexStep_literal hm' c with ⟨m'', -, -, hskip⟩ | hstep' | ⟨r, hstep'⟩
    · exact hskip.elim hc hs
    · simp only [hstep', List.nil_append, Option.map_id'] at h
      refine ne_of_read rfl (fun hp => hcy ?_) h
      simpa using hp.subset (List.mem_singleton_self c)
    · rw [hstep'] at h
      exact emitThen_ne hy h
  · have hread : lexStep (.quoted (acc ++ ['\''])) c = (.quoted (acc ++ ['\'', c]), []) := by
      simp [lexStep, hc]
    simp only [hstep, hread, List.nil_append, Option.map_id', lexFrom] at h
    refine ne_of_read rfl (fun hp => hcy ?_) h
    simpa using hp.subset (List.mem_cons_of_mem _ (List.mem_singleton_self c))
  · rw [hstep] at h
    exact emitThen_ne hy h

/-- Inside a constant the lexer never catches up: while it still owes the nonempty text `y` of
quotes and white space before the rest `z` of a field, the constant it completes is not the
field that ends after `z`. -/
theorem lexFrom_ne_of_owed {m : LexMode} {acc y z rest : Text} {c : Char} {ts : List Token}
    (hm : m.literal = some acc) (hy : y ≠ []) (hyc : ∀ x ∈ y, x = '\'' ∨ isSpace x)
    (hc : c ≠ '\'') (hs : ¬ isSpace c) (h0 : c ≠ '\x00') :
    lexFrom m (serverText (z ++ '\'' :: c :: rest)) ≠ some (.str (acc ++ y ++ z) :: ts) := by
  induction z generalizing m acc y with
  | nil =>
    rw [List.nil_append, serverText_cons (by decide), serverText_cons h0]
    exact lexFrom_ne_at_end hm hy hyc hc hs
  | cons a z ih =>
    intro h
    by_cases ha0 : a = '\x00'
    · -- the text ends inside the field
      subst ha0
      have hown : acc ≠ acc ++ y ++ '\x00' :: z := ne_append_of_ne_nil hy
      simp only [List.cons_append, serverText, ne_eq, not_true_eq_false, decide_false,
        Bool.false_eq_true, not_false_eq_true, List.takeWhile_cons_of_neg, lexFrom] at h
      cases m <;> simp_all [lexFinish, LexMode.literal]
    rw [List.cons_append, serverText_cons ha0, lexFrom] at h
    rcases lexStep_literal hm a with ⟨m', hstep, hm', hskip⟩ | hstep | ⟨r, hstep⟩
    · -- the debt grows by a character that is passed over
      have hgrow : acc ++ y ++ a :: z = acc ++ (y ++ [a]) ++ z := by simp
      have hyc' : ∀ x ∈ y ++ [a], x = '\'' ∨ isSpace x := by
        intro x hx
        rcases List.mem_append.mp hx with hx | hx
        · exact hyc x hx
        · exact List.mem_singleton.mp hx ▸ hskip
      simp only [hstep, List.nil_append, Option.map_id'] at h
      rw [hgrow] at h
      exact ih hm' (by simp) hyc' h
    · -- the character read is the first one owed, so the debt only rotates
      simp only [hstep, List.nil_append, Option.map_id'] at h
      obtain ⟨g, hg, hp⟩ := lexFrom_literal_prefix rfl h
      obtain rfl := Token.str.inj hg
      obtain ⟨y', rfl⟩ := head_of_prefix_append hy hp
      have hrotate : acc ++ a :: y' ++ a :: z = (acc ++ [a]) ++ (y' ++ [a]) ++ z := by simp
      have hyc' : ∀ x ∈ y' ++ [a], x = '\'' ∨ isSpace x := by
        intro x hx
        exact hyc x (by simpa [or_comm] using hx)
      rw [hrotate] at h
      exact ih rfl (by simp) hyc' h
    · rw [hstep] at h
      exact emitThen_ne hy h

/-! ## Commands assembled from fixed pieces and quoted fields -/

/-- Fixed text, then fields between quotes, each followed by fixed text. -/
def render : Text → List (Text × Text) → Text
  | p, [] => p
  | p, (f, q) :: rest => p ++ '\'' :: (f ++ '\'' :: render q rest)

def LexMode.boundary : LexMode → Bool
  | .ground => true
  | .word _ => true
  | _ => false

/-- The tokens of a fixed piece, the one that its end completes included. -/
def pieceTokens (p : Text) : List Token :=
  (lexRun .ground p).2 ++ (lexFinish (lexRun .ground p).1).getD []

/-- The tokens that a rendered command is meant to have. -/
def renderTokens : Text → List (Text × Text) → List Token
  | p, [] => pieceTokens p
  | p, (f, q) :: rest => pieceTokens p ++ .str f :: renderTokens q rest

/-- A fixed piece that ends neither inside a string constant nor inside a comment. -/
def PlainPiece (p : Text) : Prop := '\x00' ∉ p ∧ (lexRun .ground p).1.boundary

instance (p : Text) : Decidable (PlainPiece p) := inferInstanceAs (Decidable (_ ∧ _))

/-- A fixed piece that ends a string constant in front of it. -/
def EndsLiteral : Text → Prop
  | [] => False
  | c :: _ => c ≠ '\'' ∧ ¬ isSpace c ∧ c ≠ '\x00'

instance : (q : Text) → Decidable (EndsLiteral q)
  | [] => inferInstanceAs (Decidable False)
  | _ :: _ => inferInstanceAs (Decidable (_ ∧ _))

private theorem PlainPiece.mode {p : Text} (hp : PlainPiece p) :
    (lexRun .ground p).1 = .ground ∨ ∃ acc, (lexRun .ground p).1 = .word acc := by
  have h := hp.2
  cases hm : (lexRun .ground p).1 <;> simp_all [LexMode.boundary]

private theorem PlainPiece.lexFrom_end {p : Text} (hp : PlainPiece p) :
    lexFrom .ground (serverText p) = some (pieceTokens p) := by
  have h := serverText_append hp.1 []
  have h' := lexFrom_append .ground p []
  rw [List.append_nil] at h h'
  rw [h, serverText, List.takeWhile_nil, List.append_nil, h', pieceTokens]
  rcases hp.mode with hm | ⟨acc, hm⟩ <;> simp [hm, lexFrom, lexFinish]

private theorem PlainPiece.lexFrom_quote {p : Text} (hp : PlainPiece p) (t : Text) :
    lexFrom .ground (serverText (p ++ '\'' :: t)) =
      (lexFrom (.quoted []) (serverText t)).map fun ts => pieceTokens p ++ ts := by
  rw [serverText_append hp.1, serverText_cons (by decide), lexFrom_append, lexFrom,
    Option.map_map, pieceTokens]
  rcases hp.mode with hm | ⟨acc, hm⟩ <;>
    simp [hm, lexStep, openToken, emitThen, lexFinish, Function.comp_def,
      show isWordChar '\'' = false from by decide]

private theorem render_eq_cons {q : Text} (hq : EndsLiteral q) (rest : List (Text × Text)) :
    ∃ c t, render q rest = c :: t ∧ c ≠ '\'' ∧ ¬ isSpace c ∧ c ≠ '\x00' := by
  cases q with
  | nil => exact hq.elim
  | cons c q =>
    cases rest with
    | nil => exact ⟨c, q, rfl, hq⟩
    | cons r rest => exact ⟨c, q ++ '\'' :: (r.1 ++ '\'' :: render r.2 rest), rfl, hq⟩

private theorem lexFrom_safe_field {f q : Text} (hf : SafeLiteral f) (hq : EndsLiteral q)
    (rest : List (Text × Text)) :
    lexFrom (.quoted []) (serverText (f ++ '\'' :: render q rest)) =
      (lexFrom .ground (serverText (render q rest))).map fun ts => .str f :: ts := by
  obtain ⟨c, t, hr, hc, hs, h0⟩ := render_eq_cons hq rest
  rw [serverText_append hf.nul_notMem, serverText_cons (by decide), lexFrom_append,
    lexRun_quoted hf, hr, serverText_cons h0]
  simp [lexFrom, lexStep, hc, hs, emitThen, Function.comp_def]

private theorem lexFrom_unsafe_field {f q : Text} (hf : ¬ SafeLiteral f) (hq : EndsLiteral q)
    (rest : List (Text × Text)) (ts : List Token) :
    lexFrom (.quoted []) (serverText (f ++ '\'' :: render q rest)) ≠ some (.str f :: ts) := by
  obtain ⟨u, x, v, rfl, hu, hx⟩ := exists_of_not_safeLiteral hf
  rw [List.append_assoc, List.cons_append, serverText_append hu.nul_notMem, lexFrom_append,
    lexRun_quoted hu]
  rcases hx with rfl | rfl
  · obtain ⟨c, t, hr, hc, hs, h0⟩ := render_eq_cons hq rest
    rw [serverText_cons (by decide), lexFrom, hr]
    simp only [lexStep, if_true, List.nil_append, Option.map_id']
    have howed : lexFrom (.closing u) (serverText (v ++ '\'' :: c :: t)) ≠
        some (.str (u ++ ['\''] ++ v) :: ts) :=
      lexFrom_ne_of_owed rfl (by simp) (by simp) hc hs h0
    simpa using howed
  · simp [serverText, lexFrom, lexFinish]

/-- A rendered command is read as meant exactly when no field contains a quote or a NUL. -/
theorem lex_render_iff {p : Text} {rest : List (Text × Text)} (hp : PlainPiece p)
    (hrest : ∀ r ∈ rest, PlainPiece r.2 ∧ EndsLiteral r.2) :
    lex (render p rest) = some (renderTokens p rest) ↔ ∀ r ∈ rest, SafeLiteral r.1 := by
  induction rest generalizing p with
  | nil => simp [lex, render, renderTokens, hp.lexFrom_end]
  | cons r rest ih =>
    obtain ⟨f, q⟩ := r
    obtain ⟨hq, hq'⟩ := hrest (f, q) List.mem_cons_self
    have ih := ih hq fun r hr => hrest r (List.mem_cons_of_mem _ hr)
    rw [lex] at ih ⊢
    rw [render, hp.lexFrom_quote, renderTokens, List.forall_mem_cons]
    by_cases hf : SafeLiteral f
    · rw [lexFrom_safe_field hf hq', Option.map_map]
      simp only [hf, true_and, ← ih, Option.map_eq_some_iff, Function.comp_apply,
        List.append_cancel_left_eq, List.cons.injEq, exists_eq_right]
    · simp only [hf, false_and, iff_false, Option.map_eq_some_iff, List.append_cancel_left_eq,
        exists_eq_right]
      exact lexFrom_unsafe_field hf hq' rest _

theorem lex_render_head {p f q : Text} {rest : List (Text × Text)} (hp : PlainPiece p) :
    lex (render p ((f, q) :: rest)) =
      (lex (render [] ((f, q) :: rest))).map fun ts => pieceTokens p ++ ts := by
  have hnil : PlainPiece [] := ⟨List.not_mem_nil, rfl⟩
  have hfield : lex (render [] ((f, q) :: rest)) =
      lexFrom (.quoted []) (serverText (f ++ '\'' :: render q rest)) := by
    rw [lex, render, hnil.lexFrom_quote]
    exact Option.map_id'
  rw [hfield, lex, render, hp.lexFrom_quote]

theorem lex_render_field {p f q : Text} {rest : List (Text × Text)} (hp : PlainPiece p)
    (hf : SafeLiteral f) (hq : EndsLiteral q) :
    lex (render p ((f, q) :: rest)) =
      (lex (render q rest)).map fun ts => pieceTokens p ++ .str f :: ts := by
  rw [lex, render, hp.lexFrom_quote, lexFrom_safe_field hf hq, Option.map_map]
  rfl

theorem lex_render_cut {p f q : Text} {rest : List (Text × Text)} (hp : PlainPiece p)
    (hquote : '\'' ∉ f) (hnul : '\x00' ∈ f) : lex (render p ((f, q) :: rest)) = none := by
  have hf : ¬SafeLiteral f := fun hsafe => hsafe.nul_notMem hnul
  obtain ⟨u, x, v, rfl, hu, hx⟩ := exists_of_not_safeLiteral hf
  rcases hx with rfl | rfl
  · exact absurd (by simp) hquote
  · rw [lex, render, hp.lexFrom_quote, List.append_assoc, List.cons_append,
      serverText_append hu.nul_notMem, lexFrom_append, lexRun_quoted hu]
    simp [serverText, lexFrom, lexFinish]

theorem safeLiteral_of_first_literal {p f q : Text} {rest : List (Text × Text)} {ts : List Token}
    (hp : PlainPiece p) (hlit : literals (pieceTokens p) = []) (hq : EndsLiteral q)
    (hlex : lex (render p ((f, q) :: rest)) = some ts) (hfirst : (literals ts).head? = some f) :
    SafeLiteral f := by
  by_contra hf
  rw [lex, render, hp.lexFrom_quote] at hlex
  obtain ⟨us, hus, rfl⟩ := Option.map_eq_some_iff.mp hlex
  have hliterals : literals (pieceTokens p ++ us) = literals us := by
    simp only [literals, List.filterMap_append] at hlit ⊢
    rw [hlit, List.nil_append]
  rw [hliterals] at hfirst
  cases us with
  | nil => exact nomatch hfirst
  | cons u us =>
    obtain ⟨g, rfl, -⟩ := lexFrom_literal_prefix rfl hus
    obtain rfl : g = f := Option.some.inj hfirst
    exact lexFrom_unsafe_field hf hq rest us hus

theorem lexRun_word {w : Text} (hw : ∀ c ∈ w, isWordChar c) (acc : Text) :
    lexRun (.word acc) w = (.word (acc ++ w), []) := by
  induction w generalizing acc with
  | nil => simp [lexRun]
  | cons c w ih =>
    obtain ⟨hc, hw⟩ := List.forall_mem_cons.mp hw
    simp [lexRun, lexStep, hc, ih hw]

theorem lexFrom_word {w : Text} {c : Char} (hne : w ≠ []) (hw : ∀ c ∈ w, isWordChar c)
    (hc : ¬ isWordChar c) (t : Text) :
    lexFrom .ground (w ++ c :: t) =
      (lexFrom .ground (c :: t)).map fun ts => .word w :: ts := by
  cases w with
  | nil => exact absurd rfl hne
  | cons d w =>
    obtain ⟨hd, hw⟩ := List.forall_mem_cons.mp hw
    have hquote : d ≠ '\'' := by
      rintro rfl
      exact absurd hd (by decide)
    have hspace : ¬ isSpace d := by
      intro h
      have hcases : d = ' ' ∨ d = '\t' ∨ d = '\x0c' ∨ d = '\n' ∨ d = '\r' := by
        simpa [isSpace, isNewline, or_assoc] using h
      rcases hcases with rfl | rfl | rfl | rfl | rfl <;> exact absurd hd (by decide)
    rw [lexFrom_append, lexRun]
    simp only [lexStep, openToken, hquote, hspace, hd, if_true, if_false, Bool.false_eq_true,
      lexRun_word hw, lexFrom, hc, emitThen, Option.map_map, List.append_nil, List.nil_append,
      Function.comp_def, List.cons_append]

theorem literals_renderTokens {p : Text} {rest : List (Text × Text)}
    (hp : literals (pieceTokens p) = [])
    (hrest : ∀ r ∈ rest, literals (pieceTokens r.2) = []) :
    literals (renderTokens p rest) = rest.map Prod.fst := by
  induction rest generalizing p with
  | nil => exact hp
  | cons r rest ih =>
    obtain ⟨f, q⟩ := r
    have hq := hrest (f, q) List.mem_cons_self
    have ih := ih hq fun r hr => hrest r (List.mem_cons_of_mem _ hr)
    simp only [renderTokens, literals, List.filterMap_append, List.filterMap_cons,
      List.map_cons] at hp ih ⊢
    rw [hp, ih, List.nil_append]

theorem shape_renderTokens {p : Text} {rest rest' : List (Text × Text)}
    (h : rest.map Prod.snd = rest'.map Prod.snd) :
    shape (renderTokens p rest) = shape (renderTokens p rest') := by
  induction rest generalizing p rest' with
  | nil =>
    obtain rfl : rest' = [] := by simpa using h.symm
    rfl
  | cons r rest ih =>
    cases rest' with
    | nil => simp at h
    | cons r' rest' =>
      obtain ⟨hr, hrest⟩ := List.cons.inj h
      simp only [renderTokens, shape, List.map_append, List.map_cons] at ih ⊢
      rw [hr, ih hrest]

theorem eq_of_shape_of_literals {ts us : List Token} (hshape : shape ts = shape us)
    (hliterals : literals ts = literals us) : ts = us := by
  induction ts generalizing us with
  | nil =>
    have hlength := congrArg List.length hshape
    simp only [shape, List.map_nil, List.length_nil, List.length_map] at hlength
    exact (List.length_eq_zero_iff.mp hlength.symm).symm
  | cons t ts ih =>
    cases us with
    | nil => simp [shape] at hshape
    | cons u us =>
      obtain ⟨hhead, htail⟩ := List.cons.inj hshape
      cases t with
      | str a =>
        cases u with
        | str b =>
          obtain ⟨hab, hrest⟩ := List.cons.inj (show a :: literals ts = b :: literals us from hliterals)
          rw [hab, ih htail hrest]
        | word b => exact nomatch hhead
        | sym b => exact nomatch hhead
      | word a =>
        cases u with
        | str b => exact nomatch hhead
        | word b => rw [Token.word.inj hhead, ih htail hliterals]
        | sym b => exact nomatch hhead
      | sym a =>
        cases u with
        | str b => exact nomatch hhead
        | word b => exact nomatch hhead
        | sym b => rw [Token.sym.inj hhead, ih htail hliterals]

/-- The command has the tokens of its template, apart from the contents of the string constants,
and these are the given fields. -/
def ReadsAsMeant (command template : Text) (fields : List Text) : Prop :=
  (lex command).map shape = (lex template).map shape ∧ (lex command).map literals = some fields

instance (command template : Text) (fields : List Text) :
    Decidable (ReadsAsMeant command template fields) := inferInstanceAs (Decidable (_ ∧ _))

/-- The fixed pieces of a command: they hold no string constant, and end the constants in front
of them. -/
def FixedPieces (p : Text) (qs : List Text) : Prop :=
  PlainPiece p ∧ (∀ q ∈ qs, PlainPiece q ∧ EndsLiteral q) ∧ literals (pieceTokens p) = [] ∧
    ∀ q ∈ qs, literals (pieceTokens q) = []

instance (p : Text) (qs : List Text) : Decidable (FixedPieces p qs) :=
  inferInstanceAs (Decidable (_ ∧ _ ∧ _ ∧ _))

/-- With its fixed pieces around empty fields as the template, a rendered command reads as meant
exactly when no field contains a quote or a NUL. -/
theorem FixedPieces.readsAsMeant_iff {p : Text} {rest : List (Text × Text)}
    (h : FixedPieces p (rest.map Prod.snd)) :
    ReadsAsMeant (render p rest) (render p (rest.map fun r => ([], r.2))) (rest.map Prod.fst) ↔
      ∀ r ∈ rest, SafeLiteral r.1 := by
  obtain ⟨hp, hq, hlit, hlit'⟩ := h
  have hrest : ∀ r ∈ rest, PlainPiece r.2 ∧ EndsLiteral r.2 := fun r hr =>
    hq r.2 (List.mem_map_of_mem hr)
  have htemplate : lex (render p (rest.map fun r => ([], r.2))) =
      some (renderTokens p (rest.map fun r => ([], r.2))) := by
    refine (lex_render_iff hp fun r hr => ?_).mpr fun r hr => ?_
    · obtain ⟨r', hr', rfl⟩ := List.mem_map.mp hr
      exact hrest r' hr'
    · obtain ⟨r', -, rfl⟩ := List.mem_map.mp hr
      exact fun c hc => nomatch hc
  have hshape : shape (renderTokens p (rest.map fun r => ([], r.2))) = shape (renderTokens p rest) :=
    shape_renderTokens (by simp [Function.comp_def])
  have hliterals : literals (renderTokens p rest) = rest.map Prod.fst :=
    literals_renderTokens hlit fun r hr => hlit' r.2 (List.mem_map_of_mem hr)
  rw [← lex_render_iff hp hrest, ReadsAsMeant, htemplate, Option.map_some, hshape]
  constructor
  · rintro ⟨hs, hl⟩
    obtain ⟨ts, hts, hshape'⟩ := Option.map_eq_some_iff.mp hs
    rw [hts, Option.map_some, Option.some.injEq] at hl
    rw [hts, eq_of_shape_of_literals hshape' (hl.trans hliterals.symm)]
  · intro h
    rw [h, Option.map_some, Option.map_some, hliterals]
    exact ⟨rfl, rfl⟩

end Framework
