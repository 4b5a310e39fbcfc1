import PetProject.InotifyModule.EventBuffer

/-!
# The end of the watch

`Inotify_module::watching` reads batches of events until the folder is gone. The flag is looked at
between two batches only, so the events that share a batch with the removal are still dispatched.
-/

namespace PetProject.InotifyModule

open Framework Database Handler

def Watcher.start (filesFolder : Text) : Watcher := ⟨filesFolder, [], [], false⟩

/-- `watching`: the fields afterwards, and the arguments of the calls. -/
def watching : Watcher → List (List InotifyEvent) → Watcher × List (List Text)
  | w, [] => (w, [])
  | w, batch :: batches =>
    if w.done then (w, [])
    else
      let handled := dispatch w batch
      let rest := watching handled.1 batches
      (rest.1, handled.2 ++ rest.2)

def eventOf (arguments : List Text) : Text := arguments.getD argsEvent []

def commandsOf (hash : Hash) (calls : List (List Text)) : List Text :=
  calls.flatMap fun arguments => (handle hash true arguments).1

/-- No entry is added or deleted after the folder was removed. -/
def NothingAfterRemoval (calls : List (List Text)) : Prop :=
  calls.Pairwise fun c c' => eventOf c = "dir_del".toList →
    eventOf c' ≠ "add".toList ∧ eventOf c' ≠ "delete".toList

/-- A removal leaves the catalogue empty, with the commands carried out in order. -/
def EmptyAfterRemoval (hash : Hash) (calls : List (List Text)) : Prop :=
  (∃ c ∈ calls, eventOf c = "dir_del".toList) → ∀ (choice : Choice) (db : Db),
    (execCommands choice db (commandsOf hash calls)).songTable = []

def InotifyEvent.removes (e : InotifyEvent) : Bool := callEvent e.mask == some .dirDel

def InotifyEvent.ofEntry (e : InotifyEvent) : Bool :=
  callEvent e.mask == some .add || callEvent e.mask == some .delete

/-- In the first batch with a removal, no event of an entry follows it. -/
def QuietAfterRemoval (batches : List (List InotifyEvent)) : Prop :=
  ∀ batch ∈ batches.find? fun batch => batch.any InotifyEvent.removes,
    ∀ e ∈ (batch.dropWhile fun e => !e.removes).tail, ¬ e.ofEntry

/-! ## The calls of a run -/

/-- The events that are dispatched in a run: the batches up to the first removal. -/
def eventsHandled : List (List InotifyEvent) → List InotifyEvent
  | [] => []
  | batch :: batches =>
    if batch.any InotifyEvent.removes then batch else batch ++ eventsHandled batches

private theorem dispatch_append (w : Watcher) (es es' : List InotifyEvent) :
    dispatch w (es ++ es') = ((dispatch (dispatch w es).1 es').1,
      (dispatch w es).2 ++ (dispatch (dispatch w es).1 es').2) := by
  induction es generalizing w with
  | nil => rfl
  | cons e es ih => simp only [List.cons_append, dispatch, ih, List.append_assoc]

private theorem handleEvent_done (w : Watcher) (e : InotifyEvent) :
    (w.handleEvent e).1.done = (w.done || e.removes) := by
  rw [handleEvent_eq, InotifyEvent.removes]
  cases callEvent e.mask with
  | none => simp
  | some call => cases call <;> simp [Watcher.afterCall, Watcher.refill, Watcher.stop]

private theorem dispatch_done (w : Watcher) (es : List InotifyEvent) :
    (dispatch w es).1.done = (w.done || es.any InotifyEvent.removes) := by
  induction es generalizing w with
  | nil => simp [dispatch]
  | cons e es ih => rw [dispatch, ih, handleEvent_done, List.any_cons, Bool.or_assoc]

private theorem watching_of_done {w : Watcher} (h : w.done = true) (batches : List (List InotifyEvent)) :
    watching w batches = (w, []) := by
  cases batches with
  | nil => rfl
  | cons batch batches => rw [watching, if_pos h]

private theorem watching_calls {w : Watcher} (h : w.done = false) (batches : List (List InotifyEvent)) :
    (watching w batches).2 = (dispatch w (eventsHandled batches)).2 := by
  induction batches generalizing w with
  | nil => rfl
  | cons batch batches ih =>
    have hdone : (dispatch w batch).1.done = batch.any InotifyEvent.removes := by
      rw [dispatch_done, h, Bool.false_or]
    rw [watching, if_neg (by simp [h]), eventsHandled]
    cases hremoves : batch.any InotifyEvent.removes with
    | true =>
      rw [hremoves] at hdone
      simp [watching_of_done hdone]
    | false =>
      rw [hremoves] at hdone
      simp [ih hdone, dispatch_append]

private theorem eventOf_arguments (folder : Text) (call : WatchEvent) (entity : Text) :
    eventOf [folder, call.text, entity] = call.text := rfl

private theorem mem_dispatch_calls {w : Watcher} {es : List InotifyEvent} {c : List Text}
    (hc : c ∈ (dispatch w es).2) :
    ∃ folder call entity, c = [folder, WatchEvent.text call, entity] := by
  induction es generalizing w with
  | nil => exact nomatch hc
  | cons e es ih =>
    rw [dispatch, handleEvent_eq] at hc
    cases hcall : callEvent e.mask with
    | none =>
      rw [hcall] at hc
      exact ih hc
    | some call =>
      rw [hcall] at hc
      rcases List.mem_cons.mp hc with rfl | hc
      · exact ⟨_, call, _, rfl⟩
      · exact ih hc

private theorem dispatch_events (w : Watcher) (es : List InotifyEvent) :
    (dispatch w es).2.map eventOf =
      es.filterMap fun e => (callEvent e.mask).map WatchEvent.text := by
  have hshown := congrArg (List.map Prod.fst) (dispatch_calls w es)
  rw [List.map_map, List.map_filterMap] at hshown
  have hfst : Prod.fst ∘ shownCall = eventOf := rfl
  have hcall : (fun e : InotifyEvent => e.call.map Prod.fst) =
      fun e => (callEvent e.mask).map WatchEvent.text := by
    funext e
    rw [InotifyEvent.call, Option.map_map]
    rfl
  rw [hfst, hcall] at hshown
  exact hshown

/-! ## What follows the removal -/

private theorem pairwise_imp_iff_dropWhile {α : Type} {P : α → Bool} {Q : α → Prop} (l : List α) :
    l.Pairwise (fun a b => P a → Q b) ↔ ∀ b ∈ (l.dropWhile fun a => !P a).tail, Q b := by
  induction l with
  | nil => simp
  | cons a l ih =>
    rw [List.pairwise_cons]
    by_cases ha : P a = true
    · rw [List.dropWhile_cons_of_neg (by simp [ha]), List.tail_cons]
      constructor
      · intro h b hb
        exact h.1 b hb ha
      · intro h
        refine ⟨fun b hb _ => h b hb, ?_⟩
        exact List.pairwise_of_forall_mem_list fun _ _ b hb _ => h b hb
    · rw [List.dropWhile_cons_of_pos (by simp [ha]), ih]
      simp [ha]

private theorem relation_of_texts (e e' : InotifyEvent) :
    (∀ t, (callEvent e.mask).map WatchEvent.text = some t →
      ∀ t', (callEvent e'.mask).map WatchEvent.text = some t' →
        t = "dir_del".toList → t' ≠ "add".toList ∧ t' ≠ "delete".toList) ↔
      (e.removes → ¬ e'.ofEntry) := by
  simp only [InotifyEvent.removes, InotifyEvent.ofEntry]
  generalize callEvent e.mask = c
  generalize callEvent e'.mask = c'
  cases c with
  | none => simp
  | some call =>
    cases c' with
    | none => simp
    | some call' =>
      simp only [Option.map_some, Option.some.injEq, forall_eq']
      cases call <;> cases call' <;> decide

private theorem nothingAfterRemoval_dispatch (w : Watcher) (es : List InotifyEvent) :
    NothingAfterRemoval (dispatch w es).2 ↔
      ∀ e ∈ (es.dropWhile fun e => !e.removes).tail, ¬ e.ofEntry := by
  have hmap : NothingAfterRemoval (dispatch w es).2 ↔
      ((dispatch w es).2.map eventOf).Pairwise fun t t' => t = "dir_del".toList →
        t' ≠ "add".toList ∧ t' ≠ "delete".toList := by
    rw [List.pairwise_map]
    rfl
  rw [hmap, dispatch_events, List.pairwise_filterMap, ← pairwise_imp_iff_dropWhile]
  exact List.Pairwise.iff fun e e' => relation_of_texts e e'

private theorem quietAfterRemoval_iff (batches : List (List InotifyEvent)) :
    QuietAfterRemoval batches ↔
      ∀ e ∈ ((eventsHandled batches).dropWhile fun e => !e.removes).tail, ¬ e.ofEntry := by
  induction batches with
  | nil => simp [QuietAfterRemoval, eventsHandled]
  | cons batch batches ih =>
    rw [eventsHandled]
    cases hremoves : batch.any InotifyEvent.removes with
    | true => simp [QuietAfterRemoval, hremoves]
    | false =>
      have hnone : ∀ e ∈ batch, (!e.removes) = true := by simpa using hremoves
      rw [if_neg (by simp), List.dropWhile_append_of_pos hnone, ← ih]
      simp only [QuietAfterRemoval, List.find?_cons, hremoves]

private theorem songTable_of_dirDel_last (choice : Choice) (db : Db) (commands : List Text) :
    (execCommands choice db (commands ++ [dirDelCommand])).songTable = [] := by
  have hnames := execCommands_songNames choice db (commands ++ [dirDelCommand])
  rw [List.flatMap_append, BagOp.applyAll_append, List.flatMap_singleton, commandOps_dirDel] at hnames
  have hempty : ((execCommands choice db (commands ++ [dirDelCommand])).songTable.map
      SongRow.songName : Multiset Text) = 0 := hnames
  rw [Multiset.coe_eq_zero, List.map_eq_nil_iff] at hempty
  exact hempty

private theorem emptyAfterRemoval_of_nothing {hash : Hash} {w : Watcher} {es : List InotifyEvent}
    (h : NothingAfterRemoval (dispatch w es).2) : EmptyAfterRemoval hash (dispatch w es).2 := by
  rintro ⟨c, hc, hremoval⟩ choice db
  have hform := fun c (hc : c ∈ (dispatch w es).2) => mem_dispatch_calls hc
  generalize (dispatch w es).2 = calls at h hc hform
  rcases List.eq_nil_or_concat' calls with rfl | ⟨before, last, rfl⟩
  · exact nomatch hc
  obtain ⟨folder, call, entity, rfl⟩ := hform last (by simp)
  have hlast : call = .dirDel := by
    rcases List.mem_append.mp hc with hbefore | hself
    · have hlater := (List.pairwise_append.mp h).2.2 c hbefore _
        (List.mem_singleton_self _) hremoval
      rw [eventOf_arguments] at hlater
      cases call with
      | add => exact absurd rfl hlater.1
      | delete => exact absurd rfl hlater.2
      | dirDel => rfl
    · rw [List.mem_singleton.mp hself, eventOf_arguments] at hremoval
      cases call with
      | add => exact absurd hremoval (by decide)
      | delete => exact absurd hremoval (by decide)
      | dirDel => rfl
  subst hlast
  have hcommands : commandsOf hash (before ++ [[folder, WatchEvent.dirDel.text, entity]]) =
      commandsOf hash before ++ [dirDelCommand] := by
    rw [commandsOf, List.flatMap_append]
    rfl
  rw [hcommands]
  exact songTable_of_dirDel_last choice db _

/-- In a run no call follows the removal of the folder, and the catalogue is empty at its end,
exactly when no event of an entry follows the removal in its batch. -/
theorem nothing_after_removal_iff (hash : Hash) (filesFolder : Text)
    (batches : List (List InotifyEvent)) :
    (NothingAfterRemoval (watching (.start filesFolder) batches).2 ∧
      EmptyAfterRemoval hash (watching (.start filesFolder) batches).2) ↔
        QuietAfterRemoval batches := by
  rw [watching_calls rfl, quietAfterRemoval_iff,
    ← nothingAfterRemoval_dispatch (.start filesFolder)]
  exact ⟨And.left, fun h => ⟨h, emptyAfterRemoval_of_nothing h⟩⟩

/-- A file is created in the folder that was moved away, before the batch is read. -/
theorem file_added_after_removal :
    ¬∀ (hash : Hash) (filesFolder : Text) (batches : List (List InotifyEvent)),
      NothingAfterRemoval (watching (.start filesFolder) batches).2 ∧
        EmptyAfterRemoval hash (watching (.start filesFolder) batches).2 := by
  intro h
  have hrun := (h (fun _ => 0) "songs".toList
    [[⟨inMoveSelf, []⟩, ⟨inCreate, "a.mp3".toList⟩]]).1
  have hcalls : (watching (.start "songs".toList)
      [[⟨inMoveSelf, []⟩, ⟨inCreate, "a.mp3".toList⟩]]).2 =
      [["songs".toList, "dir_del".toList, quoted []],
        [[], "add".toList, quoted "a.mp3".toList]] := by
    decide
  rw [hcalls] at hrun
  have hpair := (List.pairwise_cons.mp hrun).1 _ (List.mem_singleton_self _) rfl
  exact hpair.1 rfl

end PetProject.InotifyModule
