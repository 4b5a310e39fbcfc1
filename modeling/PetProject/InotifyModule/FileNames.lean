import PetProject.InotifyModule.Events

/-!
# File names in commands

A name is put between quotes by the watching thread, and the handler puts the result into a
statement. The name that the server reads back is the one in the folder exactly when it has no
quote. The path of the folder, which the handler itself puts between quotes, has to be read back
as a constant too.
-/

namespace PetProject.InotifyModule

open Framework Database Handler

structure FileName where
  text : Text
  nonempty : text ≠ []
  no_slash : '/' ∉ text
  no_nul : '\x00' ∉ text

private theorem FileName.safeLiteral_iff (name : FileName) : SafeLiteral name.text ↔ '\'' ∉ name.text := by
  constructor
  · intro hsafe hquote
    exact (hsafe _ hquote).1 rfl
  · intro hquote c hc
    constructor
    · rintro rfl
      exact hquote hc
    · rintro rfl
      exact name.no_nul hc

/-- The command is a lock and one `INSERT` of the name. -/
def AddsSong (name command : Text) : Prop :=
  ∃ uid url, statementsOf command = some [.lockSongs, .insertSong name uid url]

/-- The command is a lock, one `DELETE` of the name and the numbering of the rows. -/
def DeletesSong (name command : Text) : Prop :=
  statementsOf command = some [.lockSongs, .deleteSong name, .restartSongSeq, .renumberSongs]

/-- A name survives the way into the commands, from the scan of the folder as from the reports
on the entry, and deleting undoes adding. -/
structure Encodes (hash : Hash) (folder name : Text) : Prop where
  scanned : ∀ entries i, (regularFiles entries)[i]? = some name →
    ∃ command, (handle hash true (refreshFileList folder entries)).1[i + 1]? = some command ∧
      AddsSong name command
  arrived : ∀ (w : Watcher) (notice : Notice) (kind : EntryKind), w.filesFolder = folder →
    notice.watchEvent = .add → ∃ command,
      (readHandleEvent hash w [Report.record ⟨notice, kind, name⟩]).2 = [command] ∧
        AddsSong name command
  departed : ∀ (w : Watcher) (notice : Notice) (kind : EntryKind), w.filesFolder = folder →
    notice.watchEvent = .delete → ∃ command,
      (readHandleEvent hash w [Report.record ⟨notice, kind, name⟩]).2 = [command] ∧
        DeletesSong name command
  undone : ∀ (w : Watcher) (arrival departure : Notice) (kind : EntryKind) (choice : Choice)
    (db : Db), w.filesFolder = folder → arrival.watchEvent = .add →
    departure.watchEvent = .delete → name ∉ db.songNames →
      (execCommands choice db (readHandleEvent hash w
        [Report.record ⟨arrival, kind, name⟩, Report.record ⟨departure, kind, name⟩]).2).songNames =
          db.songNames

/-- Between quotes the path of the folder is one constant; no statement follows it. -/
def ReadsAsUrl (folder : Text) : Prop :=
  ∃ url n, lex (quoted folder ++ addTail) =
    some (.str url :: .sym ')' :: List.replicate n (.sym ';'))

theorem readsAsUrl_of_safeLiteral {folder : Text} (h : SafeLiteral folder) : ReadsAsUrl folder := by
  have htail : PlainPiece addTail ∧ EndsLiteral addTail ∧ pieceTokens addTail = [.sym ')'] := by
    decide
  have hnil : PlainPiece [] := by decide
  have hrender : quoted folder ++ addTail = render [] [(folder, addTail)] := by
    simp [quoted, render]
  refine ⟨folder, 0, ?_⟩
  rw [hrender, lex_render_field hnil h htail.2.1]
  have hend : lex (render addTail []) = some [.sym ')'] := by decide
  rw [hend]
  rfl

/-! ## The commands of a name -/

/-- The tokens of the command in front of the path. -/
def addFront (name uid : Text) : List Token :=
  pieceTokens addHead ++ .str name :: (pieceTokens addSeparator ++ .str uid ::
    pieceTokens addSeparator)

private theorem addPieces_plain : PlainPiece addHead ∧ PlainPiece addSeparator ∧
    EndsLiteral addSeparator ∧ literals (pieceTokens addHead) = [] := by
  unfold addHead addSeparator
  simp only [String.toList_append, -String.reduceAppend, -String.reduceToList]
  repeat rw [String.toList_ofList]
  decide +kernel

private theorem lex_addCommand (hash : Hash) (folder : Text) {name : Text} (hname : SafeLiteral name) :
    lex (addCommand hash folder (quoted name)) =
      (lex (quoted folder ++ addTail)).map fun ts =>
        addFront name (decimal (hash (quoted name)).toNat) ++ ts := by
  obtain ⟨hhead, hseparator, hends, -⟩ := addPieces_plain
  have hrender : addCommand hash folder (quoted name) =
      render addHead [(name, addSeparator), (decimal (hash (quoted name)).toNat, addSeparator),
        (folder, addTail)] := by
    simp only [addCommand, render, quoted, List.append_assoc, List.cons_append, List.nil_append]
  have hfolder : quoted folder ++ addTail = render [] [(folder, addTail)] := by
    simp [quoted, render]
  rw [hrender, hfolder, lex_render_field hhead hname hends,
    lex_render_field hseparator (decimal_safe _) hends, lex_render_head hseparator,
    Option.map_map, Option.map_map]
  simp only [addFront, Function.comp_def, List.append_assoc, List.cons_append]

/-- The tokens of the `INSERT` after its first word and in front of the path. -/
def insertFront : List Token :=
  (shapeOf "INSERT INTO song_table (id, song_name, song_uid, song_URL) VALUES (DEFAULT, '', '', ").tail

private theorem shape_addFront (name uid : Text) : shape (addFront name uid) =
    shapeOf "LOCK TABLE song_table IN ACCESS EXCLUSIVE MODE" ++
      .sym ';' :: .word "INSERT".toList :: insertFront := by
  have hfixed : shape (addFront [] []) =
      shapeOf "LOCK TABLE song_table IN ACCESS EXCLUSIVE MODE" ++
        .sym ';' :: .word "INSERT".toList :: insertFront := by
    unfold addFront insertFront shapeOf addHead addSeparator
    simp only [String.toList_append, -String.reduceAppend, -String.reduceToList]
    repeat rw [String.toList_ofList]
    decide +kernel
  rw [← hfixed]
  simp only [addFront, shape, List.map_append, List.map_cons]

private theorem literals_addFront (name uid : Text) : literals (addFront name uid) = [name, uid] := by
  have hhead := addPieces_plain.2.2.2
  have hseparator : literals (pieceTokens addSeparator) = [] := by decide
  simp only [literals] at hhead hseparator
  simp only [addFront, literals, List.filterMap_append, List.filterMap_cons, hhead, hseparator,
    List.nil_append]

private theorem kindsOf_addFront (name uid : Text) (ts : List Token) :
    kindsOf (shape (addFront name uid ++ ts)) = some [.lockSongs, .insertSong] ↔
      ∃ n, shape ts = .str [] :: .sym ')' :: List.replicate n (.sym ';') := by
  have hlock : shapeOf "LOCK TABLE song_table IN ACCESS EXCLUSIVE MODE" ≠ [] ∧
      ∀ t ∈ shapeOf "LOCK TABLE song_table IN ACCESS EXCLUSIVE MODE", t ≠ .sym ';' := by
    unfold shapeOf
    repeat rw [String.toList_ofList]
    decide +kernel
  obtain ⟨hne, hstatement⟩ := hlock
  have hkind : kindOf (shapeOf "LOCK TABLE song_table IN ACCESS EXCLUSIVE MODE") =
      some .lockSongs :=
    kindOf_fixed (k := ("LOCK TABLE song_table IN ACCESS EXCLUSIVE MODE", .lockSongs))
      (by simp only [fixedKinds, List.mem_cons, true_or])
  have hinserts : shapeOf insertSongText = .word "INSERT".toList :: (insertFront ++
      [.str [], .sym ')']) ∧ ∀ t ∈ insertFront ++ [.str [], .sym ')'], t ≠ .sym ';' := by
    unfold insertFront insertSongText shapeOf
    repeat rw [String.toList_ofList]
    decide +kernel
  obtain ⟨hinsert, hfront⟩ := hinserts
  have hkind' : kindOf (shapeOf insertSongText) = some .insertSong :=
    kindOf_fixed (k := (insertSongText, .insertSong))
      (by simp only [fixedKinds, insertSongText, List.mem_cons, true_or, or_true])
  have hshape : shape (addFront name uid ++ ts) = shape (addFront name uid) ++ shape ts := by
    simp only [shape, List.map_append]
  rw [hshape, shape_addFront, List.append_assoc, List.cons_append, List.cons_append,
    kindsOf_append_semicolon hne hstatement, hkind, Option.bind_some]
  have hcons : (kindsOf (.word "INSERT".toList :: (insertFront ++ shape ts))).map
      (fun ks => Kind.lockSongs :: ks) = some [.lockSongs, .insertSong] ↔
      kindsOf (.word "INSERT".toList :: (insertFront ++ shape ts)) = some [.insertSong] := by
    simp [Option.map_eq_some_iff]
  rw [hcons, kindsOf_singleton_iff (by simp)]
  constructor
  · rintro ⟨as, n, hsplit, -, hk⟩
    have has := kindOf_insertSong hk
    rw [hinsert] at has
    have has := (List.cons.inj has).2
    rw [has, List.append_assoc, List.append_cancel_left_eq] at hsplit
    exact ⟨n, hsplit⟩
  · rintro ⟨n, hts⟩
    refine ⟨_, n, ?_, hfront, ?_⟩
    · rw [hts, List.append_assoc, List.cons_append, List.cons_append, List.nil_append]
    · rw [← hinsert, hkind']

private theorem addsSong_iff (hash : Hash) (folder : Text) {name : Text} (hname : SafeLiteral name) :
    AddsSong name (addCommand hash folder (quoted name)) ↔ ReadsAsUrl folder := by
  have hlex := lex_addCommand hash folder hname
  constructor
  · rintro ⟨uid, url, hss⟩
    obtain ⟨ts, hts, hparse⟩ := Option.bind_eq_some_iff.mp hss
    rw [hlex] at hts
    obtain ⟨us, hus, rfl⟩ := Option.map_eq_some_iff.mp hts
    obtain ⟨ks, hks, hbuild⟩ := Option.bind_eq_some_iff.mp hparse
    obtain ⟨k, ks', fs, rfl, hlock, hrest⟩ := buildAll_cons hbuild
    obtain ⟨rfl, rfl⟩ := (Kind.build_cases hlock).1 rfl
    obtain ⟨k, ks, fs, rfl, hinsert, hnone⟩ := buildAll_cons hrest
    obtain ⟨rfl, hfs⟩ := (Kind.build_cases hinsert).2.1 _ _ _ rfl
    obtain ⟨rfl, rfl⟩ := buildAll_nil hnone
    obtain ⟨n, hshape⟩ := (kindsOf_addFront _ _ _).mp hks
    have hliterals : literals (addFront name (decimal (hash (quoted name)).toNat) ++ us) =
        [name, decimal (hash (quoted name)).toNat] ++ literals us := by
      rw [← literals_addFront]
      simp only [literals, List.filterMap_append]
    rw [hliterals] at hfs
    have hparts : decimal (hash (quoted name)).toNat = uid ∧ literals us = [url] := by
      simpa using hfs
    refine ⟨url, n, ?_⟩
    rw [hus, Option.some.injEq]
    apply eq_of_shape_of_literals
    · rw [hshape]
      simp [shape]
    · rw [hparts.2]
      simp [literals]
  · rintro ⟨url, n, hfolder⟩
    refine ⟨decimal (hash (quoted name)).toNat, url, ?_⟩
    have hkinds := (kindsOf_addFront name (decimal (hash (quoted name)).toNat)
      (.str url :: .sym ')' :: List.replicate n (.sym ';'))).mpr ⟨n, by simp [shape]⟩
    have hliterals : literals (addFront name (decimal (hash (quoted name)).toNat) ++
        .str url :: .sym ')' :: List.replicate n (.sym ';')) =
        [name, decimal (hash (quoted name)).toNat, url] := by
      have happend := literals_addFront name (decimal (hash (quoted name)).toNat)
      simp only [literals] at happend
      simp [literals, happend]
    rw [statementsOf, hlex, hfolder, Option.map_some, Option.bind_some, parse, hkinds,
      Option.bind_some, hliterals]
    rfl

/-! ## Names with a quote -/

private theorem first_literal_of_statements {command name : Text} {s : Statement} {ss : List Statement}
    (h : statementsOf command = some (.lockSongs :: s :: ss))
    (hs : (∃ uid url, s = .insertSong name uid url) ∨ s = .deleteSong name) :
    ∃ ts, lex command = some ts ∧ (literals ts).head? = some name := by
  obtain ⟨ts, hts, hparse⟩ := Option.bind_eq_some_iff.mp h
  obtain ⟨ks, -, hbuild⟩ := Option.bind_eq_some_iff.mp hparse
  obtain ⟨k, ks', fs, rfl, hlock, hrest⟩ := buildAll_cons hbuild
  obtain ⟨rfl, hfs⟩ := (Kind.build_cases hlock).1 rfl
  obtain ⟨k, ks, fs', rfl, hname, -⟩ := buildAll_cons hrest
  refine ⟨ts, hts, ?_⟩
  rw [hfs]
  rcases hs with ⟨uid, url, rfl⟩ | rfl
  · rw [((Kind.build_cases hname).2.1 _ _ _ rfl).2, List.head?_cons]
  · rw [((Kind.build_cases hname).2.2 _ rfl).2, List.head?_cons]

private theorem AddsSong.safeLiteral {hash : Hash} {folder name : Text}
    (h : AddsSong name (addCommand hash folder (quoted name))) : SafeLiteral name := by
  obtain ⟨uid, url, hss⟩ := h
  obtain ⟨ts, hts, hfirst⟩ := first_literal_of_statements hss (Or.inl ⟨uid, url, rfl⟩)
  obtain ⟨hhead, -, hends, hlit⟩ := addPieces_plain
  have hrender : addCommand hash folder (quoted name) =
      render addHead [(name, addSeparator), (decimal (hash (quoted name)).toNat, addSeparator),
        (folder, addTail)] := by
    simp only [addCommand, render, quoted, List.append_assoc, List.cons_append, List.nil_append]
  rw [hrender] at hts
  exact safeLiteral_of_first_literal hhead hlit hends hts hfirst

private theorem handle_add (hash : Hash) (folder entity : Text) :
    (handle hash true [folder, WatchEvent.add.text, entity]).1 = [addCommand hash folder entity] :=
  rfl

private theorem handle_delete (hash : Hash) (folder entity : Text) :
    (handle hash true [folder, WatchEvent.delete.text, entity]).1 = [deleteCommand entity] :=
  rfl

private theorem readHandleEvent_record (hash : Hash) (w : Watcher) (r : Report) (es : List InotifyEvent) :
    (readHandleEvent hash w (r.record :: es)).2 =
      (handle hash true [w.filesFolder, r.notice.watchEvent.text, quoted r.name]).1 ++
        (readHandleEvent hash { w with event := r.notice.watchEvent.text,
                                       entityName := quoted r.name } es).2 := by
  rw [readHandleEvent, Report.handleEvent_record]

/-- A file name survives the way into the commands exactly when it has no quote, provided that
the path of the folder reads as a constant. -/
theorem file_name_encodes_iff (hash : Hash) (folder : Text) (name : FileName) :
    Encodes hash folder name.text ↔ '\'' ∉ name.text ∧ ReadsAsUrl folder := by
  rw [← name.safeLiteral_iff]
  constructor
  · intro h
    obtain ⟨command, hcommand, hadds⟩ :=
      h.arrived ⟨folder, [], [], false⟩ .created .regular rfl rfl
    rw [readHandleEvent_record, Notice.watchEvent, handle_add] at hcommand
    obtain rfl : addCommand hash folder (quoted name.text) = command := by
      simpa [readHandleEvent] using hcommand
    have hsafe := hadds.safeLiteral
    exact ⟨hsafe, (addsSong_iff hash folder hsafe).mp hadds⟩
  · rintro ⟨hsafe, hfolder⟩
    have hadds := (addsSong_iff hash folder hsafe).mpr hfolder
    refine ⟨?_, ?_, ?_, ?_⟩
    · intro entries i hi
      refine ⟨_, ?_, hadds⟩
      rw [handle_refreshFileList, List.getElem?_cons_succ, List.getElem?_map, hi]
      rfl
    · rintro w notice kind rfl hnotice
      refine ⟨_, ?_, hadds⟩
      rw [readHandleEvent_record, hnotice, handle_add]
      rfl
    · rintro w notice kind rfl hnotice
      refine ⟨_, ?_, statementsOf_delete hsafe⟩
      rw [readHandleEvent_record, hnotice, handle_delete]
      rfl
    · rintro w arrival departure kind choice db rfl harrival hdeparture hnew
      obtain ⟨uid, url, hss⟩ := hadds
      have hadd : commandOps (addCommand hash w.filesFolder (quoted name.text)) =
          [.add name.text] := by
        rw [commandOps, hss]
        rfl
      have hkept : ∀ other ∈ db.songNames, other ≠ name.text := by
        rintro other hother rfl
        exact hnew hother
      rw [readHandleEvent_record, harrival, handle_add, readHandleEvent_record, hdeparture,
        handle_delete, readHandleEvent, execCommands_songNames]
      simp only [List.append_nil, List.flatMap_append, List.flatMap_singleton, hadd,
        commandOps_delete hsafe]
      simp [BagOp.applyAll, BagOp.apply, Multiset.filter_eq_self.mpr hkept]

/-- An apostrophe ends the constant early, and the rest of the command is not what was meant. -/
theorem apostrophe_not_encoded :
    ¬∀ (hash : Hash) (folder : Text) (name : FileName), Encodes hash folder name.text := by
  intro h
  have hbad := h (fun _ => 0) "songs".toList
    ⟨"don't.mp3".toList, by decide, by decide, by decide⟩
  obtain ⟨command, hcommand, hdeletes⟩ :=
    hbad.departed ⟨"songs".toList, [], [], false⟩ .deleted .regular rfl rfl
  rw [readHandleEvent_record, Notice.watchEvent, handle_delete] at hcommand
  obtain rfl : deleteCommand (quoted "don't.mp3".toList) = command := by
    simpa [readHandleEvent] using hcommand
  have hrejected : statementsOf (deleteCommand (quoted "don't.mp3".toList)) = none := by
    unfold deleteCommand deleteHead deleteTail
    simp only [String.toList_append, -String.reduceAppend, -String.reduceToList]
    repeat rw [String.toList_ofList]
    decide +kernel
  exact Option.some_ne_none _ (hdeletes.symm.trans hrejected)

end PetProject.InotifyModule
