import PetProject.Framework.Bytes
import PetProject.InotifyModule.Events

/-!
# The buffer of events

`Inotify_module::read_handle_event` walks over the bytes that `read` put into its buffer. A record
is a header of four numbers, with the length of the name as the last, and the name with NULs
behind it. The loop is compared with the dispatch of the events one by one, and every byte that it
looks at is recorded.
-/

namespace PetProject.InotifyModule

open Framework Database Handler

/-! ## Dispatch of a list of events -/

/-- The branch that an event takes. -/
def callEvent (mask : Mask) : Option WatchEvent :=
  if mask &&& inCreate ≠ 0 then some .add
  else if mask &&& inDelete ≠ 0 then some .delete
  else if mask &&& inMovedFrom ≠ 0 then some .delete
  else if mask &&& inMovedTo ≠ 0 then some .add
  else if mask &&& inDeleteSelf ≠ 0 then some .dirDel
  else if mask &&& inMoveSelf ≠ 0 then some .dirDel
  else none

/-- The fields with the event and the name filled in. -/
def Watcher.refill (w : Watcher) (call : WatchEvent) (name : Text) : Watcher :=
  { w with event := call.text, entityName := quoted name }

/-- The fields after a call. -/
def Watcher.afterCall (w : Watcher) (call : WatchEvent) (name : Text) : Watcher :=
  match call with
  | .dirDel => (w.refill call name).stop
  | _ => w.refill call name

/-- The body of the loop calls the handler in the branches of `callEvent`. -/
theorem handleEvent_eq (w : Watcher) (e : InotifyEvent) :
    w.handleEvent e =
      match callEvent e.mask with
      | some call => (w.afterCall call e.name, some [w.filesFolder, call.text, quoted e.name])
      | none => ({ w with event := [], entityName := [] }, none) := by
  unfold callEvent Watcher.handleEvent
  split_ifs <;> rfl

/-- The loop over events that are given as a list: the fields afterwards, and the arguments of
the calls. -/
def dispatch : Watcher → List InotifyEvent → Watcher × List (List Text)
  | w, [] => (w, [])
  | w, e :: es =>
    let handled := w.handleEvent e
    let rest := dispatch handled.1 es
    (rest.1, handled.2.toList ++ rest.2)

private theorem readHandleEvent_eq_dispatch (hash : Hash) (w : Watcher) (es : List InotifyEvent) :
    readHandleEvent hash w es = ((dispatch w es).1,
      (dispatch w es).2.flatMap fun arguments => (handle hash true arguments).1) := by
  induction es generalizing w with
  | nil => rfl
  | cons e es ih =>
    rw [readHandleEvent, ih, dispatch]
    cases (w.handleEvent e).2 <;> simp

/-- What a call is about: the event and, but for the removal of the folder, the quoted name. -/
abbrev ShownCall := Text × Option Text

/-- What the argument vector says of a call. -/
def shownCall (arguments : List Text) : ShownCall :=
  let event := arguments.getD argsEvent []
  (event, if event = WatchEvent.dirDel.text then none else some (arguments.getD argsEntityName []))

/-- The call of an event on its own. -/
def InotifyEvent.call (e : InotifyEvent) : Option ShownCall :=
  (callEvent e.mask).map fun call =>
    (call.text, if call = .dirDel then none else some (quoted e.name))

private theorem shownCall_arguments (folder : Text) (call : WatchEvent) (entity : Text) :
    shownCall [folder, call.text, entity] =
      (call.text, if call = .dirDel then none else some entity) := by
  have htext : call.text = WatchEvent.dirDel.text ↔ call = .dirDel := by
    cases call <;> decide
  simp only [shownCall, argsEvent, argsEntityName, List.getD_cons_succ, List.getD_cons_zero, htext]

/-- Whatever the fields hold before, the calls are those of the events one by one. -/
theorem dispatch_calls (w : Watcher) (es : List InotifyEvent) :
    (dispatch w es).2.map shownCall = es.filterMap InotifyEvent.call := by
  induction es generalizing w with
  | nil => rfl
  | cons e es ih =>
    rw [dispatch, List.map_append, ih, List.filterMap_cons, handleEvent_eq, InotifyEvent.call]
    cases callEvent e.mask with
    | none => rfl
    | some call => simp [shownCall_arguments]

/-- A call with the folder that is handed over. -/
abbrev FullCall := Text × ShownCall

def fullCall (arguments : List Text) : FullCall :=
  (arguments.getD argsFilesFolder [], shownCall arguments)

/-- The call of an event on its own, for a folder. -/
def InotifyEvent.callIn (folder : Text) (e : InotifyEvent) : Option FullCall :=
  e.call.map fun call => (folder, call)

/-- Behind the first removal of the folder nothing is called. -/
def NothingBehindRemoval (calls : List (Option WatchEvent)) : Prop :=
  ∀ call ∈ (calls.dropWhile fun call => call ≠ some .dirDel).tail, call = none

private theorem fullCall_arguments (folder : Text) (call : WatchEvent) (entity : Text) :
    fullCall [folder, call.text, entity] =
      (folder, call.text, if call = .dirDel then none else some entity) := by
  rw [fullCall, shownCall_arguments]
  rfl

private theorem dispatch_of_cleared {w : Watcher} (h : w.filesFolder = [])
    (es : List InotifyEvent) :
    (dispatch w es).2.map fullCall = es.filterMap (InotifyEvent.callIn []) := by
  induction es generalizing w with
  | nil => rfl
  | cons e es ih =>
    rw [dispatch, List.map_append, List.filterMap_cons, handleEvent_eq, InotifyEvent.callIn,
      InotifyEvent.call]
    cases callEvent e.mask with
    | none => exact ih (w := { w with event := [], entityName := [] }) h
    | some call =>
      have hcleared : (w.afterCall call e.name).filesFolder = [] := by
        cases call <;> simp [Watcher.afterCall, Watcher.refill, Watcher.stop, h]
      dsimp only
      rw [ih hcleared]
      simp [fullCall_arguments, h]

private theorem filterMap_callIn_eq_iff (folder folder' : Text) (es : List InotifyEvent) :
    es.filterMap (InotifyEvent.callIn folder) = es.filterMap (InotifyEvent.callIn folder') ↔
      folder = folder' ∨ ∀ e ∈ es, callEvent e.mask = none := by
  induction es with
  | nil => simp
  | cons e es ih =>
    rw [List.filterMap_cons, List.filterMap_cons, InotifyEvent.callIn, InotifyEvent.callIn,
      InotifyEvent.call]
    cases hcall : callEvent e.mask with
    | none => simpa [hcall] using ih
    | some call =>
      simp only [Option.map_some, List.cons.injEq, Prod.mk.injEq, and_true, ih, List.mem_cons,
        forall_eq_or_imp, hcall, reduceCtorEq, false_and, or_false]
      exact ⟨And.left, fun h => ⟨h, Or.inl h⟩⟩

private theorem dispatch_calls_iff (w : Watcher) (es : List InotifyEvent) :
    (dispatch w es).2.map fullCall = es.filterMap (InotifyEvent.callIn w.filesFolder) ↔
      w.filesFolder = [] ∨ NothingBehindRemoval (es.map fun e => callEvent e.mask) := by
  induction es generalizing w with
  | nil => exact iff_of_true rfl (Or.inr fun call hcall => absurd hcall List.not_mem_nil)
  | cons e es ih =>
    rw [dispatch, List.map_append, List.filterMap_cons, handleEvent_eq, InotifyEvent.callIn,
      InotifyEvent.call, NothingBehindRemoval, List.map_cons]
    cases hcall : callEvent e.mask with
    | none => simpa [NothingBehindRemoval] using ih { w with event := [], entityName := [] }
    | some call =>
      cases call with
      | add | delete =>
        simpa [NothingBehindRemoval, fullCall_arguments, Watcher.afterCall, Watcher.refill] using
          ih (w.refill _ e.name)
      | dirDel =>
        have hcleared := dispatch_of_cleared (w := (w.refill .dirDel e.name).stop) rfl es
        have hiff : es.filterMap (InotifyEvent.callIn []) =
            es.filterMap (InotifyEvent.callIn w.filesFolder) ↔
              w.filesFolder = [] ∨ ∀ call ∈ es.map fun e => callEvent e.mask, call = none := by
          rw [filterMap_callIn_eq_iff, List.forall_mem_map]
          exact or_congr_left eq_comm
        simpa [Watcher.afterCall, hcleared, fullCall_arguments] using hiff

/-! ## Records in memory -/

/-- `sizeof(struct inotify_event)`. -/
def headerSize : Nat := 16

/-- A record of the kernel. A name ends with a NUL; without a name there may be no bytes at
all behind the header. -/
structure EventRecord where
  wd : BitVec 32
  mask : Mask
  cookie : BitVec 32
  name : Bytes
  padding : Nat
  nul_free : 0 ∉ name
  terminated : name ≠ [] → 0 < padding

namespace EventRecord

/-- The number of the bytes behind the header. -/
def len (r : EventRecord) : Nat := r.name.length + r.padding

def size (r : EventRecord) : Nat := headerSize + r.len

def bytes (r : EventRecord) : Bytes :=
  littleEndian 4 r.wd.toNat ++ littleEndian 4 r.mask.toNat ++ littleEndian 4 r.cookie.toNat ++
    littleEndian 4 r.len ++ r.name ++ List.replicate r.padding 0

private theorem length_bytes (r : EventRecord) : r.bytes.length = r.size := by
  simp [bytes, size, len, headerSize]
  omega

private theorem len_pos_iff (r : EventRecord) : 0 < r.len ↔ 0 < r.padding := by
  have hterminated := r.terminated
  rw [len]
  constructor
  · intro h
    by_contra hpadding
    have hname : r.name ≠ [] := by
      intro hname
      simp [hname] at h
      omega
    exact hpadding (hterminated hname)
  · omega

end EventRecord

/-- The records that `read` returns fit into a buffer whose size is an `int`. -/
structure Batch where
  records : List EventRecord
  fits : (records.flatMap EventRecord.bytes).length < 2 ^ 31

def Batch.bytes (b : Batch) : Bytes := b.records.flatMap EventRecord.bytes

/-! ## The loop over the buffer -/

/-- The mask and the name, taken as a C string, of the record at an offset. -/
def eventAt (memory : Bytes) (i : Nat) : InotifyEvent :=
  ⟨BitVec.ofNat 32 (numberAt memory (i + 4) 4), textOfBytes (cString (memory.drop (i + headerSize)))⟩

def lenAt (memory : Bytes) (i : Nat) : Nat := numberAt memory (i + 12) 4

/-- The positions that the body of the loop inspects: the mask, the name in the branches that
call the handler, and the length. -/
def inspectedAt (memory : Bytes) (i : Nat) : List Nat :=
  List.range' (i + 4) 4 ++
    (if (callEvent (eventAt memory i).mask).isSome then cSpan memory (i + headerSize) else []) ++
    List.range' (i + 12) 4

/-- The offset at which an event is taken, and the positions that are inspected for it. -/
structure EventVisit where
  offset : Nat
  inspected : List Nat
  deriving DecidableEq, Repr

/-- What the loop leaves behind. -/
structure Decoded where
  watcher : Watcher
  visits : List EventVisit
  calls : List (List Text)
  deriving DecidableEq, Repr

/-- The conversion of a `size_t` to `int`. -/
def toInt (n : Nat) : Int := Int.bmod n (2 ^ 32)

/-- `while (i < ret_read)`; `none` when the fuel runs out or the index is in front of the
buffer. -/
def eventLoop (memory : Bytes) (retRead : Int) : Nat → Int → Watcher → Option Decoded
  | 0, i, w => if i < retRead then none else some ⟨w, [], []⟩
  | fuel + 1, i, w =>
    if i < retRead then
      if i < 0 then none
      else
        let handled := w.handleEvent (eventAt memory i.toNat)
        let next := toInt (i.toNat + (headerSize + lenAt memory i.toNat))
        (eventLoop memory retRead fuel next handled.1).map fun rest =>
          ⟨rest.watcher, ⟨i.toNat, inspectedAt memory i.toNat⟩ :: rest.visits,
            handled.2.toList ++ rest.calls⟩
    else some ⟨w, [], []⟩

/-- Behind the batch lies memory that does not belong to it, with a NUL somewhere. -/
def Batch.memory (b : Batch) (after : Bytes) : Bytes := b.bytes ++ after ++ [0]

/-- The loop on a batch. -/
def Batch.decode (b : Batch) (after : Bytes) (w : Watcher) : Option Decoded :=
  eventLoop (b.memory after) b.bytes.length b.bytes.length 0 w

/-! ## One record -/

section Record

variable {memory rest : Bytes} {i : Nat} {r : EventRecord}

variable (hdrop : memory.drop i = r.bytes ++ rest)
include hdrop

private theorem eventAt_mask : (eventAt memory i).mask = r.mask := by
  have hmask : memory.drop (i + 4) = littleEndian 4 r.mask.toNat ++
      (littleEndian 4 r.cookie.toNat ++ littleEndian 4 r.len ++ r.name ++
        List.replicate r.padding 0 ++ rest) := by
    rw [← List.drop_drop, hdrop, EventRecord.bytes]
    simp only [List.append_assoc]
    exact List.drop_left' (length_littleEndian 4 _)
  have hlt : r.mask.toNat < 256 ^ 4 := r.mask.isLt
  rw [eventAt, numberAt_of_drop hmask hlt]
  exact BitVec.eq_of_toNat_eq (by simp)

private theorem lenAt_eq (hlen : r.len < 2 ^ 32) : lenAt memory i = r.len := by
  have hfields : memory.drop (i + 12) = littleEndian 4 r.len ++
      (r.name ++ List.replicate r.padding 0 ++ rest) := by
    have hsplit : r.bytes ++ rest =
        (littleEndian 4 r.wd.toNat ++ littleEndian 4 r.mask.toNat ++
          littleEndian 4 r.cookie.toNat) ++
        (littleEndian 4 r.len ++ (r.name ++ List.replicate r.padding 0 ++ rest)) := by
      simp only [EventRecord.bytes, List.append_assoc]
    rw [← List.drop_drop, hdrop, hsplit]
    exact List.drop_left' (by simp)
  exact numberAt_of_drop hfields hlen

private theorem drop_name : memory.drop (i + headerSize) =
    r.name ++ List.replicate r.padding 0 ++ rest := by
  have hsplit : r.bytes ++ rest =
      (littleEndian 4 r.wd.toNat ++ littleEndian 4 r.mask.toNat ++
        littleEndian 4 r.cookie.toNat ++ littleEndian 4 r.len) ++
      (r.name ++ List.replicate r.padding 0 ++ rest) := by
    simp only [EventRecord.bytes, List.append_assoc]
  rw [← List.drop_drop, hdrop, hsplit]
  exact List.drop_left' (by simp [headerSize])

private theorem drop_next : memory.drop (i + r.size) = rest := by
  rw [← List.drop_drop, hdrop]
  exact List.drop_left' r.length_bytes

private theorem cString_name (hlen : 0 < r.len) : cString (memory.drop (i + headerSize)) = r.name := by
  have hpadding := r.len_pos_iff.mp hlen
  obtain ⟨n, hn⟩ := Nat.exists_eq_succ_of_ne_zero (Nat.pos_iff_ne_zero.mp hpadding)
  rw [drop_name hdrop, hn, List.replicate_succ, List.append_assoc, List.cons_append]
  exact cString_append r.nul_free _

end Record

private theorem toInt_of_lt {n : Nat} (h : n < 2 ^ 31) : toInt n = n := by
  apply Int.bmod_eq_of_le <;> push_cast <;> omega

private theorem eventLoop_records (memory after : Bytes) (records : List EventRecord) (i fuel : Nat)
    (w : Watcher) (hdrop : memory.drop i = records.flatMap EventRecord.bytes ++ after)
    (hfits : i + (records.flatMap EventRecord.bytes).length < 2 ^ 31)
    (hfuel : records.length ≤ fuel) :
    eventLoop memory ((i + (records.flatMap EventRecord.bytes).length : Nat) : Int) fuel i w =
      some ⟨(dispatch w ((offsets i (records.map EventRecord.size)).map (eventAt memory))).1,
        (offsets i (records.map EventRecord.size)).map fun o => ⟨o, inspectedAt memory o⟩,
        (dispatch w ((offsets i (records.map EventRecord.size)).map (eventAt memory))).2⟩ := by
  induction records generalizing i fuel w with
  | nil => cases fuel <;> simp [eventLoop, offsets, dispatch]
  | cons r records ih =>
    obtain _ | fuel := fuel
    · exact absurd hfuel (by simp)
    have hpos : 0 < r.size := Nat.add_pos_left (by decide) _
    rw [List.flatMap_cons, List.length_append, r.length_bytes] at hfits ⊢
    rw [List.flatMap_cons, List.append_assoc] at hdrop
    have hlen : lenAt memory i = r.len := by
      apply lenAt_eq hdrop
      rw [EventRecord.size] at hfits
      omega
    have hnext : toInt (i + (headerSize + lenAt memory i)) = ((i + r.size : Nat) : Int) := by
      rw [hlen]
      apply toInt_of_lt
      rw [EventRecord.size] at hfits
      omega
    have hrest := ih (i + r.size) fuel (w.handleEvent (eventAt memory i)).1 (drop_next hdrop)
      (by omega) (Nat.le_of_succ_le_succ hfuel)
    have hbound : ((i : Nat) : Int) < ((i + (r.size + (records.flatMap EventRecord.bytes).length)
        : Nat) : Int) := by
      omega
    rw [eventLoop, if_pos hbound, if_neg (by omega)]
    simp only [Int.toNat_natCast, hnext]
    rw [← Nat.add_assoc, hrest]
    rfl

private theorem length_le_bytes (records : List EventRecord) :
    records.length ≤ (records.flatMap EventRecord.bytes).length := by
  induction records with
  | nil => exact Nat.le_refl _
  | cons r records ih =>
    rw [List.flatMap_cons, List.length_append, r.length_bytes, List.length_cons, EventRecord.size,
      headerSize]
    omega

/-- The offsets of the records of a batch. -/
def Batch.starts (b : Batch) : List Nat := offsets 0 (b.records.map EventRecord.size)

private theorem Batch.decode_eq (b : Batch) (after : Bytes) (w : Watcher) :
    b.decode after w = some ⟨(dispatch w (b.starts.map (eventAt (b.memory after)))).1,
      b.starts.map fun o => ⟨o, inspectedAt (b.memory after) o⟩,
      (dispatch w (b.starts.map (eventAt (b.memory after)))).2⟩ := by
  have hdrop : (b.memory after).drop 0 = b.records.flatMap EventRecord.bytes ++ (after ++ [0]) := by
    rw [List.drop_zero, memory, bytes, List.append_assoc]
  have hfits := b.fits
  have hloop := eventLoop_records (b.memory after) (after ++ [0]) b.records 0 b.bytes.length w hdrop
    (by omega) (length_le_bytes b.records)
  rw [Nat.zero_add] at hloop
  exact hloop

/-- On the events that it finds in the buffer, the loop is `read_handle_event`. -/
theorem Batch.decode_readHandleEvent (hash : Hash) (b : Batch) (after : Bytes) (w : Watcher) :
    ∃ d, b.decode after w = some d ∧
      readHandleEvent hash w (b.starts.map (eventAt (b.memory after))) =
        (d.watcher, d.calls.flatMap fun arguments => (handle hash true arguments).1) :=
  ⟨_, b.decode_eq after w, readHandleEvent_eq_dispatch hash w _⟩

private theorem forall₂_offsets {memory after : Bytes} {P : EventRecord → Nat → Prop}
    (hP : ∀ r i rest, memory.drop i = r.bytes ++ rest → P r i) (records : List EventRecord)
    {i : Nat} (hdrop : memory.drop i = records.flatMap EventRecord.bytes ++ after) :
    List.Forall₂ P records (offsets i (records.map EventRecord.size)) := by
  induction records generalizing i with
  | nil => exact .nil
  | cons r records ih =>
    rw [List.flatMap_cons, List.append_assoc] at hdrop
    exact .cons (hP r i _ hdrop) (ih (drop_next hdrop))

private theorem Batch.forall₂_starts (b : Batch) (after : Bytes) {P : EventRecord → Nat → Prop}
    (hP : ∀ r i rest, (b.memory after).drop i = r.bytes ++ rest → P r i) :
    List.Forall₂ P b.records b.starts := by
  have hdrop : (b.memory after).drop 0 = b.records.flatMap EventRecord.bytes ++ (after ++ [0]) := by
    rw [List.drop_zero, memory, bytes, List.append_assoc]
  exact forall₂_offsets hP b.records hdrop

private theorem filterMap_eq_of_forall₂ {α β γ : Type} {f : α → Option γ} {g : β → Option γ}
    {as : List α} {bs : List β} (h : List.Forall₂ (fun a b => f a = g b) as bs) :
    as.filterMap f = bs.filterMap g := by
  induction h with
  | nil => rfl
  | cons hab _ ih => rw [List.filterMap_cons, List.filterMap_cons, hab, ih]

private theorem forall₂_iff_forall_mem {α β : Type} {R : α → β → Prop} {P : α → Prop} {as : List α}
    {bs : List β} (h : List.Forall₂ (fun a b => R a b ↔ P a) as bs) :
    List.Forall₂ R as bs ↔ ∀ a ∈ as, P a := by
  induction h with
  | nil => simp
  | cons hhead _ ih => rw [List.forall₂_cons, hhead, ih, List.forall_mem_cons]

/-! ## Events of the kernel -/

/-- What an event is about; the kernel sets one of these bits, or none. -/
inductive EventKind
  | created | deleted | movedFrom | movedTo | deleteSelf | moveSelf | other
  deriving DecidableEq, Repr

namespace EventKind

def bit : EventKind → Mask
  | .created => inCreate
  | .deleted => inDelete
  | .movedFrom => inMovedFrom
  | .movedTo => inMovedTo
  | .deleteSelf => inDeleteSelf
  | .moveSelf => inMoveSelf
  | .other => 0

/-- The event is about an entry of the folder, not about the folder itself. -/
def OfEntry : EventKind → Prop
  | .created | .deleted | .movedFrom | .movedTo => True
  | _ => False

/-- The event tells that the folder is gone. -/
def removes : EventKind → Bool
  | .deleteSelf | .moveSelf => true
  | _ => false

/-- The call that each kind of event stands for. -/
def call : EventKind → Text → Option ShownCall
  | .created, name | .movedTo, name => some ("add".toList, some (quoted name))
  | .deleted, name | .movedFrom, name => some ("delete".toList, some (quoted name))
  | .deleteSelf, _ | .moveSelf, _ => some ("dir_del".toList, none)
  | .other, _ => none

end EventKind

/-- The bits by which events are told apart. -/
def kindBits : Mask :=
  inCreate ||| inDelete ||| inMovedFrom ||| inMovedTo ||| inDeleteSelf ||| inMoveSelf

/-- An event of a watched folder. Events about entries carry the name. -/
structure KernelEvent extends EventRecord where
  kind : EventKind
  flags : Mask
  flags_plain : flags &&& kindBits = 0
  mask_eq : mask = kind.bit ||| flags
  named : kind.OfEntry → 0 < padding

private theorem plain_and {flags b : Mask} (hflags : flags &&& kindBits = 0)
    (hb : kindBits &&& b = b) : flags &&& b = 0 := by
  rw [← hb, ← BitVec.and_assoc, hflags]
  exact BitVec.zero_and

private theorem or_flags_and {flags b : Mask} (bit : Mask) (hflags : flags &&& kindBits = 0)
    (hb : kindBits &&& b = b) : (bit ||| flags) &&& b = bit &&& b := by
  have hdistrib : (bit ||| flags) &&& b = bit &&& b ||| flags &&& b := by
    ext j
    simp [Bool.and_or_distrib_right]
  rw [hdistrib, plain_and hflags hb]
  exact BitVec.or_zero

private theorem callEvent_or_flags (kind : EventKind) {flags : Mask} (hflags : flags &&& kindBits = 0) :
    callEvent (kind.bit ||| flags) = callEvent kind.bit := by
  simp only [callEvent, or_flags_and kind.bit hflags (b := inCreate) (by decide),
    or_flags_and kind.bit hflags (b := inDelete) (by decide),
    or_flags_and kind.bit hflags (b := inMovedFrom) (by decide),
    or_flags_and kind.bit hflags (b := inMovedTo) (by decide),
    or_flags_and kind.bit hflags (b := inDeleteSelf) (by decide),
    or_flags_and kind.bit hflags (b := inMoveSelf) (by decide)]

namespace KernelEvent

def call (e : KernelEvent) : Option ShownCall := e.kind.call (textOfBytes e.name)

private theorem callEvent_mask (e : KernelEvent) : callEvent e.mask = callEvent e.kind.bit := by
  rw [e.mask_eq, callEvent_or_flags e.kind e.flags_plain]

private theorem call_of_read (e : KernelEvent) {read : InotifyEvent} (hmask : read.mask = e.mask)
    (hname : 0 < e.len → read.name = textOfBytes e.name) : read.call = e.call := by
  have hentry : e.kind.OfEntry → read.name = textOfBytes e.name :=
    fun h => hname (e.len_pos_iff.mpr (e.named h))
  rw [InotifyEvent.call, hmask, callEvent_mask, call]
  cases hkind : e.kind with
  | created | deleted | movedFrom | movedTo =>
    rw [hentry (by rw [hkind]; trivial)]
    rfl
  | deleteSelf | moveSelf | other => rfl

end KernelEvent

/-- A batch of events of the kernel. -/
structure KernelBatch where
  events : List KernelEvent
  fits : ((events.map KernelEvent.toEventRecord).flatMap EventRecord.bytes).length < 2 ^ 31

def KernelBatch.batch (b : KernelBatch) : Batch :=
  ⟨b.events.map KernelEvent.toEventRecord, b.fits⟩

/-- The call of an event on its own, for a folder. -/
def KernelEvent.callIn (folder : Text) (e : KernelEvent) : Option FullCall :=
  e.call.map fun call => (folder, call)

/-- Behind the first event that tells of the folder's removal no event leads to a call. -/
def KernelBatch.NothingBehindRemoval (b : KernelBatch) : Prop :=
  ∀ e ∈ (b.events.dropWhile fun e => !e.kind.removes).tail, e.kind = .other

private theorem KernelBatch.nothingBehindRemoval_iff (b : KernelBatch) :
    InotifyModule.NothingBehindRemoval (b.events.map fun e => callEvent e.mask) ↔
      b.NothingBehindRemoval := by
  have hnone : ∀ e : KernelEvent, callEvent e.mask = none ↔ e.kind = .other := by
    intro e
    rw [e.callEvent_mask]
    cases e.kind <;> decide
  have hremoves : (fun e : KernelEvent => decide (callEvent e.mask ≠ some .dirDel)) =
      fun e => !e.kind.removes := by
    funext e
    rw [e.callEvent_mask]
    cases e.kind <;> decide
  rw [InotifyModule.NothingBehindRemoval, List.dropWhile_map, ← List.map_tail, List.forall_mem_map]
  simp only [Function.comp_def, hremoves, hnone]
  rfl

private theorem KernelBatch.forall₂_read (b : KernelBatch) (after : Bytes) :
    List.Forall₂ (fun (e : KernelEvent) (read : InotifyEvent) => read.mask = e.mask ∧
      read.call = e.call) b.events (b.batch.starts.map (eventAt (b.batch.memory after))) := by
  have hread : List.Forall₂ (fun (r : EventRecord) o =>
      (eventAt (b.batch.memory after) o).mask = r.mask ∧
        (0 < r.len → (eventAt (b.batch.memory after) o).name = textOfBytes r.name))
      (b.events.map KernelEvent.toEventRecord) b.batch.starts := by
    apply b.batch.forall₂_starts after
    intro r i rest hdrop
    exact ⟨eventAt_mask hdrop, fun hlen => congrArg textOfBytes (cString_name hdrop hlen)⟩
  rw [List.forall₂_map_right_iff]
  exact (List.forall₂_map_left_iff.mp hread).imp fun e o h => ⟨h.1, e.call_of_read h.1 h.2⟩

private theorem KernelBatch.dispatch_calls_iff (b : KernelBatch) (after : Bytes) (w : Watcher) :
    (dispatch w (b.batch.starts.map (eventAt (b.batch.memory after)))).2.map fullCall =
        b.events.filterMap (KernelEvent.callIn w.filesFolder) ↔
      w.filesFolder = [] ∨ b.NothingBehindRemoval := by
  have hread := b.forall₂_read after
  have hcalls : b.events.filterMap (KernelEvent.callIn w.filesFolder) =
      (b.batch.starts.map (eventAt (b.batch.memory after))).filterMap
        (InotifyEvent.callIn w.filesFolder) := by
    refine filterMap_eq_of_forall₂ (hread.imp fun e read h => ?_)
    rw [KernelEvent.callIn, InotifyEvent.callIn, h.2]
  have hmasks : (b.batch.starts.map (eventAt (b.batch.memory after))).map
      (fun e => callEvent e.mask) = b.events.map fun e => callEvent e.mask := by
    have heq : List.Forall₂ (fun call call' => call = call')
        ((b.batch.starts.map (eventAt (b.batch.memory after))).map fun e => callEvent e.mask)
        (b.events.map fun e => callEvent e.mask) := by
      rw [List.forall₂_map_left_iff, List.forall₂_map_right_iff]
      exact hread.flip.imp fun read e h => congrArg callEvent h.1
    rwa [List.forall₂_eq_eq_eq] at heq
  rw [hcalls, InotifyModule.dispatch_calls_iff, hmasks, b.nothingBehindRemoval_iff]

/-- The loop ends, takes every event of a batch once and in order, and calls the handler with the
event and the name of each on its own, whatever the fields held before. The folder is the same for
all of them exactly when no event that leads to a call comes behind a removal of the folder. -/
theorem event_batch_decodes_iff (b : KernelBatch) (after : Bytes) (w : Watcher) :
    ∃ d, b.batch.decode after w = some d ∧
      d.visits.map EventVisit.offset = offsets 0 (b.events.map fun e => e.size) ∧
      d.calls.map shownCall = b.events.filterMap KernelEvent.call ∧
      (d.calls.map fullCall = b.events.filterMap (KernelEvent.callIn w.filesFolder) ↔
        w.filesFolder = [] ∨ b.NothingBehindRemoval) := by
  refine ⟨_, b.batch.decode_eq after w, ?_, ?_, b.dispatch_calls_iff after w⟩
  · simp [KernelBatch.batch, Batch.starts, Function.comp_def]
  · rw [dispatch_calls]
    exact (filterMap_eq_of_forall₂ ((b.forall₂_read after).imp fun e read h => h.2.symm)).symm

/-- The file `a.mp3` is created. -/
def createdEvent : KernelEvent where
  wd := 1
  mask := inCreate
  cookie := 0
  name := [97, 46, 109, 112, 51]
  padding := 11
  nul_free := by decide
  terminated := by decide
  kind := .created
  flags := 0
  flags_plain := rfl
  mask_eq := rfl
  named _ := by decide

/-- The folder is moved. -/
def moveSelfEvent : KernelEvent where
  wd := 1
  mask := inMoveSelf
  cookie := 0
  name := []
  padding := 0
  nul_free := by decide
  terminated := by decide
  kind := .moveSelf
  flags := 0
  flags_plain := rfl
  mask_eq := rfl
  named h := h.elim

/-- A file is created, and the folder is moved. -/
def moveBatch : KernelBatch where
  events := [createdEvent, moveSelfEvent]
  fits := by decide

theorem event_batch_decodes_move :
    ∃ d, moveBatch.batch.decode [] ⟨"songs".toList, [], [], false⟩ = some d ∧
      d.calls.map fullCall =
        moveBatch.events.filterMap (KernelEvent.callIn "songs".toList) := by
  obtain ⟨d, hd, -, -, hcalls⟩ :=
    event_batch_decodes_iff moveBatch [] ⟨"songs".toList, [], [], false⟩
  exact ⟨d, hd, hcalls.mpr (Or.inr (by unfold KernelBatch.NothingBehindRemoval; decide))⟩

/-- The folder is moved, and a file is created in it before the batch is read. -/
def movedFolderBatch : KernelBatch where
  events := [moveSelfEvent, createdEvent]
  fits := by decide

/-- The call for the file goes to an empty folder. -/
theorem cleared_folder_is_carried :
    ¬∀ (b : KernelBatch) (after : Bytes) (w : Watcher), ∃ d, b.batch.decode after w = some d ∧
      d.calls.map fullCall = b.events.filterMap (KernelEvent.callIn w.filesFolder) := by
  intro h
  obtain ⟨d, hd, hcalls⟩ := h movedFolderBatch [] ⟨"songs".toList, [], [], false⟩
  obtain rfl := Option.some.inj ((movedFolderBatch.batch.decode_eq _ _).symm.trans hd)
  rcases (movedFolderBatch.dispatch_calls_iff [] _).mp hcalls with hfolder | hnothing
  · exact absurd hfolder (by decide)
  · have hbehind := hnothing createdEvent (List.mem_singleton_self _)
    exact absurd hbehind (by decide)

/-! ## What is read of the buffer -/

/-- The event is taken at the offset of its record, and nothing outside the record is
inspected. -/
def InOwnRecord (r : EventRecord) (v : EventVisit) : Prop :=
  ∀ p ∈ v.inspected, v.offset ≤ p ∧ p < v.offset + r.size

private theorem inOwnRecord_iff {memory rest : Bytes} {i : Nat} {r : EventRecord}
    (hdrop : memory.drop i = r.bytes ++ rest) :
    InOwnRecord r ⟨i, inspectedAt memory i⟩ ↔ ((callEvent r.mask).isSome → 0 < r.len) := by
  have hsize : r.size = headerSize + r.len := rfl
  have hheader : headerSize = 16 := rfl
  constructor
  · intro h hcall
    by_contra hlen
    have hfirst : i + headerSize ∈ inspectedAt memory i := by
      rw [inspectedAt, eventAt_mask hdrop, if_pos hcall]
      simp [self_mem_cSpan]
    have hinside := h _ hfirst
    simp only at hinside
    omega
  · intro h p hp
    simp only [inspectedAt, eventAt_mask hdrop, List.mem_append, List.mem_range'_1] at hp
    rcases hp with (hp | hp) | hp
    · simp only
      omega
    · by_cases hcall : (callEvent r.mask).isSome
      · -- the name and its NUL are the record's own
        have hlen := h hcall
        have hpadding := r.len_pos_iff.mp hlen
        rw [if_pos hcall, mem_cSpan, cString_name hdrop hlen] at hp
        rw [EventRecord.len] at hsize
        simp only
        omega
      · rw [if_neg hcall] at hp
        exact nomatch hp
    · simp only
      omega

/-- Every byte that the loop inspects belongs to the record of the current event exactly when no
event whose name is read comes without bytes for it. -/
theorem event_batch_reads_own_records_iff (b : Batch) (after : Bytes) (w : Watcher) :
    ∃ d, b.decode after w = some d ∧ d.visits.map EventVisit.offset = b.starts ∧
      (List.Forall₂ InOwnRecord b.records d.visits ↔
        ∀ r ∈ b.records, (callEvent r.mask).isSome → 0 < r.len) := by
  refine ⟨_, b.decode_eq after w, by simp [Function.comp_def], ?_⟩
  have hiff := b.forall₂_starts after
    (P := fun r o => InOwnRecord r ⟨o, inspectedAt (b.memory after) o⟩ ↔
      ((callEvent r.mask).isSome → 0 < r.len)) fun r i rest hdrop => inOwnRecord_iff hdrop
  rw [List.forall₂_map_right_iff]
  exact forall₂_iff_forall_mem hiff

/-- The folder is deleted, and the kernel drops the watch. -/
def removalBatch : Batch where
  records := [⟨1, inDeleteSelf, 0, [], 0, by decide, by decide⟩,
    ⟨1, 0x8000, 0, [], 0, by decide, by decide⟩]
  fits := by decide

/-- The name of the removed folder is taken from the header of the next record. -/
theorem removal_reads_next_record :
    ¬∀ (b : Batch) (after : Bytes) (w : Watcher), ∃ d, b.decode after w = some d ∧
      List.Forall₂ InOwnRecord b.records d.visits := by
  intro h
  obtain ⟨d, hd, hinside⟩ := h removalBatch [] ⟨"songs".toList, [], [], false⟩
  obtain rfl := Option.some.inj ((removalBatch.decode_eq _ _).symm.trans hd)
  have hfirst : InOwnRecord ⟨1, inDeleteSelf, 0, [], 0, by decide, by decide⟩
      ⟨0, inspectedAt (removalBatch.memory []) 0⟩ := (List.forall₂_cons.mp hinside).1
  have hread : 16 ∈ inspectedAt (removalBatch.memory []) 0 := by decide
  exact absurd (hfirst 16 hread).2 (by decide)

end PetProject.InotifyModule
