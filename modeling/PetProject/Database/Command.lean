import PetProject.Database.Tables

/-!
# Command strings

A command string is lexed, cut into statements at its semicolons and carried out as one
transaction. A statement is recognised by its tokens up to the contents of its string constants,
which are dealt out to the statements in order.
-/

namespace PetProject.Database

open Framework

/-- The statements that the program's commands are made of. -/
inductive Kind
  | lockSongs | lockRecords | insertSong | deleteSong | truncateSongs | restartSongSeq
  | renumberSongs | insertRecord | restartLogSeq | renumberRecords | selectLogSeq
  | deleteOldRecords | countRecords | deleteRecords (upTo : Nat)
  deriving DecidableEq, Repr

def shapeOf (sql : String) : List Token := shape ((lex sql.toList).getD [])

/-- The fixed statements, with empty string constants. -/
def fixedKinds : List (String × Kind) :=
  [("LOCK TABLE song_table IN ACCESS EXCLUSIVE MODE", .lockSongs),
    ("LOCK TABLE log_table IN ACCESS EXCLUSIVE MODE", .lockRecords),
    ("INSERT INTO song_table (id, song_name, song_uid, song_URL) VALUES (DEFAULT, '', '', '')",
      .insertSong),
    ("DELETE FROM song_table WHERE song_name = ''", .deleteSong),
    ("TRUNCATE song_table RESTART IDENTITY", .truncateSongs),
    ("ALTER SEQUENCE song_seq RESTART", .restartSongSeq),
    ("UPDATE song_table SET ID = DEFAULT", .renumberSongs),
    ("INSERT INTO log_table (id, requested_host, port, ip, user_agent, rest_method, target, " ++
      "req_date_time) VALUES(DEFAULT, '', '', ''::inet, '', '', '', LOCALTIMESTAMP)",
      .insertRecord),
    ("ALTER SEQUENCE log_seq RESTART", .restartLogSeq),
    ("UPDATE log_table SET ID = DEFAULT", .renumberRecords),
    ("SELECT last_value FROM log_seq", .selectLogSeq),
    ("DELETE FROM log_table WHERE (DATE_TRUNC('', (LOCALTIMESTAMP - req_date_time)) >= " ++
      "(INTERVAL '' DAY))", .deleteOldRecords),
    ("SELECT count(*) FROM log_table", .countRecords)]

/-- The numeral that bounds the ids of a trim. -/
def numeral : Token → Option Nat
  | .word w => if w ≠ [] ∧ w.all Char.isDigit then some (Nat.ofDigitChars 10 w 0) else none
  | _ => none

/-- The number of days in an interval. -/
def signedNumeral : Text → Option Int
  | '-' :: w => (numeral (.word w)).map fun n : Nat => -(n : Int)
  | w => (numeral (.word w)).map fun n : Nat => (n : Int)

def kindOf (ts : List Token) : Option Kind :=
  if ts.dropLast = shapeOf "DELETE FROM log_table WHERE id <=" then
    (ts.getLast?.bind numeral).map .deleteRecords
  else (fixedKinds.find? fun k => shapeOf k.1 = ts).map Prod.snd

/-- The statements of a command that has the given shape. -/
def kindsOf (ts : List Token) : Option (List Kind) :=
  ((ts.splitOnP fun t => t = .sym ';').filter fun s => s ≠ []).mapM kindOf

theorem kindsOf_append_semicolon {as bs : List Token} (hne : as ≠ [])
    (has : ∀ t ∈ as, t ≠ .sym ';') :
    kindsOf (as ++ .sym ';' :: bs) =
      (kindOf as).bind fun k => (kindsOf bs).map fun ks => k :: ks := by
  have hsplit : (as ++ .sym ';' :: bs).splitOnP (fun t => decide (t = .sym ';')) =
      as :: bs.splitOnP fun t => decide (t = .sym ';') :=
    List.splitOnP_append_cons_of_forall_mem (by simpa using has) _ (by simp) _
  simp only [kindsOf, hsplit, List.filter_cons, hne, ne_eq, not_false_eq_true, decide_true, if_true,
    List.mapM_cons]
  cases kindOf as with
  | none => rfl
  | some k => cases List.mapM kindOf _ <;> rfl

private theorem kindsOf_of_no_semicolon {as : List Token} (hne : as ≠ [])
    (has : ∀ t ∈ as, t ≠ .sym ';') : kindsOf as = (kindOf as).map fun k => [k] := by
  have hsplit : as.splitOnP (fun t => decide (t = .sym ';')) = [as] :=
    List.splitOnP_eq_singleton fun t ht => by simpa using has t ht
  simp only [kindsOf, hsplit, List.filter_cons, hne, ne_eq, not_false_eq_true, decide_true, if_true,
    List.filter_nil, List.mapM_cons, List.mapM_nil]
  cases kindOf as <;> rfl

private theorem kindsOf_semicolon_cons (ts : List Token) : kindsOf (.sym ';' :: ts) = kindsOf ts := by
  simp [kindsOf, List.splitOnP_cons_eq_if_modifyHead]

private theorem exists_statement (ts : List Token) :
    ∃ as bs, ts = as ++ bs ∧ (∀ t ∈ as, t ≠ .sym ';') ∧ (bs = [] ∨ ∃ bs', bs = .sym ';' :: bs') := by
  induction ts with
  | nil => exact ⟨[], [], rfl, by simp, Or.inl rfl⟩
  | cons t ts ih =>
    by_cases ht : t = .sym ';'
    · exact ⟨[], t :: ts, rfl, by simp, Or.inr ⟨ts, by rw [ht]⟩⟩
    · obtain ⟨as, bs, rfl, has, hbs⟩ := ih
      exact ⟨t :: as, bs, rfl, by simpa [ht] using has, hbs⟩

private theorem kindsOf_eq_nil_iff {ts : List Token} :
    kindsOf ts = some [] ↔ ∃ n, ts = List.replicate n (.sym ';') := by
  constructor
  · intro h
    induction ts with
    | nil => exact ⟨0, rfl⟩
    | cons t ts ih =>
      by_cases ht : t = .sym ';'
      · subst ht
        rw [kindsOf_semicolon_cons] at h
        obtain ⟨n, rfl⟩ := ih h
        exact ⟨n + 1, rfl⟩
      · obtain ⟨as, bs, rfl, has, hbs⟩ := exists_statement ts
        have hstatement : ∀ u ∈ t :: as, u ≠ .sym ';' := by simpa [ht] using has
        rcases hbs with rfl | ⟨bs, rfl⟩
        · rw [List.append_nil, kindsOf_of_no_semicolon (List.cons_ne_nil _ _) hstatement] at h
          simp at h
        · rw [← List.cons_append, kindsOf_append_semicolon (List.cons_ne_nil _ _) hstatement] at h
          simp [Option.bind_eq_some_iff] at h
  · rintro ⟨n, rfl⟩
    induction n with
    | zero => rfl
    | succ n ih => rw [List.replicate_succ, kindsOf_semicolon_cons, ih]

theorem kindsOf_singleton_iff {a : Token} {ts : List Token} {k : Kind} (ha : a ≠ .sym ';') :
    kindsOf (a :: ts) = some [k] ↔
      ∃ as n, ts = as ++ List.replicate n (.sym ';') ∧ (∀ t ∈ as, t ≠ .sym ';') ∧
        kindOf (a :: as) = some k := by
  constructor
  · intro h
    obtain ⟨as, bs, rfl, has, hbs⟩ := exists_statement ts
    have hstatement : ∀ u ∈ a :: as, u ≠ .sym ';' := by simpa [ha] using has
    rcases hbs with rfl | ⟨bs, rfl⟩
    · rw [List.append_nil, kindsOf_of_no_semicolon (List.cons_ne_nil _ _) hstatement] at h
      obtain ⟨k', hk, hks⟩ := Option.map_eq_some_iff.mp h
      obtain rfl : k' = k := by simpa using hks
      exact ⟨as, 0, rfl, has, hk⟩
    · rw [← List.cons_append, kindsOf_append_semicolon (List.cons_ne_nil _ _) hstatement] at h
      obtain ⟨k', hk, hrest⟩ := Option.bind_eq_some_iff.mp h
      obtain ⟨ks, hks, hcons⟩ := Option.map_eq_some_iff.mp hrest
      obtain ⟨rfl, rfl⟩ := List.cons.inj hcons
      obtain ⟨n, rfl⟩ := kindsOf_eq_nil_iff.mp hks
      exact ⟨as, n + 1, rfl, has, hk⟩
  · rintro ⟨as, n, rfl, has, hk⟩
    have hstatement : ∀ u ∈ a :: as, u ≠ .sym ';' := by simpa [ha] using has
    cases n with
    | zero =>
      rw [List.replicate_zero, List.append_nil,
        kindsOf_of_no_semicolon (List.cons_ne_nil _ _) hstatement, hk]
      rfl
    | succ n =>
      rw [List.replicate_succ, ← List.cons_append,
        kindsOf_append_semicolon (List.cons_ne_nil _ _) hstatement, hk,
        kindsOf_eq_nil_iff.mpr ⟨n, rfl⟩]
      rfl

private theorem shapes_fixed :
    (∀ ts ∈ fixedKinds.map fun k => shapeOf k.1, ts ≠ [] ∧ (∀ t ∈ ts, t ≠ .sym ';') ∧
      ts.dropLast ≠ shapeOf "DELETE FROM log_table WHERE id <=") ∧
      (fixedKinds.map fun k => shapeOf k.1).Nodup := by
  unfold shapeOf
  simp only [fixedKinds, List.map_cons, String.toList_append, -String.reduceAppend,
    -String.reduceToList]
  repeat rw [String.toList_ofList]
  decide +kernel

theorem kindOf_fixed {k : String × Kind} (hk : k ∈ fixedKinds) :
    kindOf (shapeOf k.1) = some k.2 := by
  have hdelete := (shapes_fixed.1 _ (List.mem_map_of_mem hk)).2.2
  rw [kindOf, if_neg hdelete]
  cases hfind : fixedKinds.find? fun r => shapeOf r.1 = shapeOf k.1 with
  | none => exact absurd (decide_eq_true rfl) (List.find?_eq_none.mp hfind k hk)
  | some r =>
    have hshape : shapeOf r.1 = shapeOf k.1 := by simpa using List.find?_some hfind
    have hsame : r = k :=
      List.inj_on_of_nodup_map shapes_fixed.2 (List.mem_of_find?_eq_some hfind) hk hshape
    rw [Option.map_some, hsame]

theorem kindsOf_fixed {ks : List (String × Kind)} (hks : ks ⊆ fixedKinds) :
    kindsOf ([.sym ';'].intercalate (ks.map fun k => shapeOf k.1)) = some (ks.map Prod.snd) := by
  induction ks with
  | nil => rfl
  | cons k ks ih =>
    obtain ⟨hk, hks⟩ := List.cons_subset.mp hks
    obtain ⟨hne, hstatement, -⟩ := shapes_fixed.1 _ (List.mem_map_of_mem hk)
    cases ks with
    | nil =>
      rw [List.map_singleton, List.intercalate_singleton, kindsOf_of_no_semicolon hne hstatement,
        kindOf_fixed hk]
      rfl
    | cons k' ks =>
      rw [List.map_cons, List.map_cons, List.intercalate_cons_cons, List.append_assoc,
        List.singleton_append, kindsOf_append_semicolon hne hstatement, kindOf_fixed hk,
        ← List.map_cons (f := fun k : String × Kind => shapeOf k.1), ih hks]
      rfl

/-- The text by which an `INSERT` of a song is recognised. -/
def insertSongText : String :=
  "INSERT INTO song_table (id, song_name, song_uid, song_URL) VALUES (DEFAULT, '', '', '')"

theorem kindOf_insertSong {ts : List Token} (h : kindOf ts = some .insertSong) :
    ts = shapeOf insertSongText := by
  unfold kindOf at h
  split at h
  · obtain ⟨n, -, hn⟩ := Option.map_eq_some_iff.mp h
    exact nomatch hn
  · obtain ⟨k, hk, hinsert⟩ := Option.map_eq_some_iff.mp h
    have hshape := List.find?_some hk
    have hmem := List.mem_of_find?_eq_some hk
    have hshape : shapeOf k.1 = ts := by simpa using hshape
    rw [← hshape]
    simp only [fixedKinds, List.mem_cons, List.not_mem_nil, or_false] at hmem
    rcases hmem with rfl | rfl | rfl | rfl | rfl | rfl | rfl | rfl | rfl | rfl | rfl | rfl | rfl
    case inr.inr.inl => rfl
    all_goals exact nomatch hinsert

/-- A statement takes its string constants from the front of the list. -/
def Kind.build : Kind → List Text → Option (Statement × List Text)
  | .lockSongs, fs => some (.lockSongs, fs)
  | .lockRecords, fs => some (.lockRecords, fs)
  | .insertSong, name :: uid :: url :: fs => some (.insertSong name uid url, fs)
  | .deleteSong, name :: fs => some (.deleteSong name, fs)
  | .truncateSongs, fs => some (.truncateSongs, fs)
  | .restartSongSeq, fs => some (.restartSongSeq, fs)
  | .renumberSongs, fs => some (.renumberSongs, fs)
  | .insertRecord, host :: port :: ip :: agent :: method :: target :: fs =>
      some (.insertRecord host port ip agent method target, fs)
  | .restartLogSeq, fs => some (.restartLogSeq, fs)
  | .renumberRecords, fs => some (.renumberRecords, fs)
  | .selectLogSeq, fs => some (.selectLogSeq, fs)
  | .deleteRecords n, fs => some (.deleteRecords n, fs)
  | .deleteOldRecords, field :: days :: fs =>
      if field = "days".toList then
        (signedNumeral days).map fun days => (.deleteOldRecords days, fs)
      else none
  | .countRecords, fs => some (.countRecords, fs)
  | _, _ => none

def buildAll : List Kind → List Text → Option (List Statement)
  | [], [] => some []
  | [], _ :: _ => none
  | k :: ks, fs => (k.build fs).bind fun r => (buildAll ks r.2).map fun ss => r.1 :: ss

def parse (ts : List Token) : Option (List Statement) :=
  (kindsOf (shape ts)).bind fun ks => buildAll ks (literals ts)

theorem Kind.build_cases {k : Kind} {fs fs' : List Text} {s : Statement}
    (h : k.build fs = some (s, fs')) :
    (s = .lockSongs → k = .lockSongs ∧ fs = fs') ∧
    (∀ name uid url, s = .insertSong name uid url →
      k = .insertSong ∧ fs = name :: uid :: url :: fs') ∧
    (∀ name, s = .deleteSong name → k = .deleteSong ∧ fs = name :: fs') := by
  unfold build at h
  split at h
  case h_13 =>
    obtain ⟨-, hdays⟩ := Option.ite_none_right_eq_some.mp h
    obtain ⟨days, -, hr⟩ := Option.map_eq_some_iff.mp hdays
    obtain ⟨rfl, -⟩ := Prod.mk.inj hr
    simp
  case h_15 => exact nomatch h
  all_goals
    obtain ⟨rfl, rfl⟩ := Prod.mk.inj (Option.some.inj h)
    simp

theorem buildAll_cons {ks : List Kind} {fs : List Text} {s : Statement} {ss : List Statement}
    (h : buildAll ks fs = some (s :: ss)) :
    ∃ k ks' fs', ks = k :: ks' ∧ k.build fs = some (s, fs') ∧ buildAll ks' fs' = some ss := by
  cases ks with
  | nil => cases fs <;> simp [buildAll] at h
  | cons k ks =>
    obtain ⟨r, hr, hrest⟩ := Option.bind_eq_some_iff.mp h
    obtain ⟨ss', hss, hcons⟩ := Option.map_eq_some_iff.mp hrest
    obtain ⟨rfl, rfl⟩ := List.cons.inj hcons
    exact ⟨k, ks, r.2, rfl, hr, hss⟩

theorem buildAll_nil {ks : List Kind} {fs : List Text} (h : buildAll ks fs = some []) :
    ks = [] ∧ fs = [] := by
  cases ks with
  | nil => cases fs <;> simp_all [buildAll]
  | cons k ks => simp [buildAll, Option.bind_eq_some_iff] at h

/-- The statements of a command string; `none` when the server rejects it. -/
def statementsOf (command : Text) : Option (List Statement) := (lex command).bind parse

/-- Execute a command string as one transaction. -/
def runCommand (choice : Choice) (command : Text) (db : Db) : Option (Db × Option Text) :=
  (statementsOf command).map fun ss => execAll choice ss db

theorem runCommand_of_statements {command : Text} {ss : List Statement}
    (h : statementsOf command = some ss) (choice : Choice) (db : Db) :
    runCommand choice command db = some (execAll choice ss db) := by
  rw [runCommand, h, Option.map_some]

/-- The fixed pieces of a command between which the statements are of the given kinds. -/
def ReadsAs (p : Text) (qs : List Text) (ks : List Kind) : Prop :=
  FixedPieces p qs ∧ kindsOf (shape (renderTokens p (qs.map fun q => ([], q)))) = some ks

instance (p : Text) (qs : List Text) (ks : List Kind) : Decidable (ReadsAs p qs ks) :=
  inferInstanceAs (Decidable (_ ∧ _))

theorem readsAs_of_fixed {p : Text} {qs : List Text} (ks : List (String × Kind))
    (hks : ks ⊆ fixedKinds) (h : FixedPieces p qs ∧
      shape (renderTokens p (qs.map fun q => ([], q))) =
        [.sym ';'].intercalate (ks.map fun k => shapeOf k.1)) :
    ReadsAs p qs (ks.map Prod.snd) :=
  ⟨h.1, by rw [h.2, kindsOf_fixed hks]⟩

/-- A command with safe fields is parsed from its fixed pieces. -/
theorem statementsOf_render {p : Text} {rest : List (Text × Text)} {ks : List Kind}
    {ss : List Statement} (hreads : ReadsAs p (rest.map Prod.snd) ks)
    (hsafe : ∀ r ∈ rest, SafeLiteral r.1) (hss : buildAll ks (rest.map Prod.fst) = some ss) :
    statementsOf (render p rest) = some ss := by
  obtain ⟨⟨hp, hq, hlit, hlit'⟩, hks⟩ := hreads
  have hrest : ∀ r ∈ rest, PlainPiece r.2 ∧ EndsLiteral r.2 := fun r hr =>
    hq r.2 (List.mem_map_of_mem hr)
  have hconst : ∀ r ∈ rest, literals (pieceTokens r.2) = [] := fun r hr =>
    hlit' r.2 (List.mem_map_of_mem hr)
  have hshape : shape (renderTokens p rest) =
      shape (renderTokens p ((rest.map Prod.snd).map fun q => ([], q))) :=
    shape_renderTokens (by simp [Function.comp_def])
  rw [statementsOf, (lex_render_iff hp hrest).mpr hsafe, Option.bind_some, parse, hshape, hks,
    Option.bind_some, literals_renderTokens hlit hconst, hss]

theorem statementsOf_fixed {p : Text} {ks : List Kind} {ss : List Statement}
    (hreads : ReadsAs p [] ks) (hss : buildAll ks [] = some ss) : statementsOf p = some ss := by
  have hsafe : ∀ r ∈ ([] : List (Text × Text)), SafeLiteral r.1 := by simp
  exact statementsOf_render hreads hsafe hss

end PetProject.Database
