import Primadb.Core.Gathering
import Primadb.Net.RelayClient

/-!
# Streams of application messages

A body that is too large for a message is sent as a stream of frames: an opening frame, the parts
of its text as numbered data frames, and a closing frame. The assembler gathers the data frames of
a stream in a buffer and hands on the body when all are there. An opening frame starts the buffer
anew, whatever was gathered before it, and after the body was handed on nothing is left that tells
a late frame from one of a new stream. The text of JSON values is a parameter.
-/

namespace Primadb

/-- `ApplicationStreamFrameKind`. -/
inductive ApplicationStreamFrameKind where
  | opening
  | data
  | ack
  | nack
  | close
  | error
  deriving DecidableEq

/-- A frame of a stream. -/
structure ApplicationStreamFrame where
  /-- Name of the stream. -/
  streamId : String
  /-- Number of the frame. -/
  sequence : ℕ
  /-- What it is. -/
  kind : ApplicationStreamFrameKind
  /-- Namespace of the application. -/
  namespaceName : String
  protocol : String
  /-- Topic of the message. -/
  topic : Option String
  /-- Part of the text. -/
  chunk : Option String
  /-- Whether it is the last part. -/
  finalChunk : Bool
  /-- The frame it acknowledges. -/
  ackSequence : Option ℕ
  /-- What went wrong. -/
  error : Option String
  /-- Anything else. -/
  metadata : BTreeMap String JsonValue
  deriving DecidableEq

/-- What a stream is asked to send. -/
structure ApplicationStreamSendOptions where
  /-- Namespace of the application. -/
  namespaceName : String
  protocol : String
  /-- Topic of the message. -/
  topic : Option String
  body : JsonValue
  /-- Anything else. -/
  metadata : BTreeMap String JsonValue
  /-- How long a part of the text may be. -/
  maxChunkChars : ℕ

/-- What is gathered of a stream. -/
structure ApplicationStreamBuffer where
  /-- Who sent the first frame. -/
  sender : String
  /-- The transport it came over. -/
  transport : RouteTransportKind
  /-- Namespace of the application. -/
  namespaceName : String
  protocol : String
  /-- Topic of the message. -/
  topic : Option String
  /-- Anything else. -/
  metadata : BTreeMap String JsonValue
  /-- The parts by number. -/
  chunks : BTreeMap ℕ String
  /-- Number of the last part, when it is known. -/
  finalSequence : Option ℕ

/-- A body that is handed on. -/
structure ApplicationStreamEvent where
  /-- Name of the stream. -/
  streamId : String
  /-- Who sent it. -/
  sender : String
  transport : RouteTransportKind
  /-- Namespace of the application. -/
  namespaceName : String
  protocol : String
  /-- Topic of the message. -/
  topic : Option String
  body : JsonValue
  /-- Anything else. -/
  metadata : BTreeMap String JsonValue
  deriving DecidableEq

/-- The buffers of all streams. -/
structure ApplicationStreamAssembler where
  /-- Buffers by stream. -/
  buffers : BTreeMap String ApplicationStreamBuffer := ∅

/-! ## Sending -/

/-- A character is put to the current part, which is cut off when it is long enough. -/
def chunkStep (maxChars : ℕ) (st : List String × List Char) (character : Char) :
    List String × List Char :=
  let current := st.2 ++ [character]
  if maxChars ≤ current.length then (st.1 ++ [String.ofList current], []) else (st.1, current)

/-- `chunk_string`. -/
def chunkString (value : String) (maxChars : ℕ) : List String :=
  if value = "" then [""]
  else
    let st := value.toList.foldl (chunkStep maxChars) ([], [])
    if st.2.isEmpty then st.1 else st.1 ++ [String.ofList st.2]

namespace ApplicationStreamSendOptions

variable (options : ApplicationStreamSendOptions) (print : JsonValue → String) (streamId : String)

/-- The parts of the text. -/
def chunks : List String := chunkString (print options.body) (max options.maxChunkChars 1)

/-- A frame with the fields that all frames of the stream share. -/
def frame (sequence : ℕ) (kind : ApplicationStreamFrameKind) (chunk : Option String)
    (finalChunk : Bool) : ApplicationStreamFrame :=
  ⟨streamId, sequence, kind, options.namespaceName, options.protocol, options.topic, chunk,
    finalChunk, none, none, options.metadata⟩

/-- The opening frame. -/
def openFrame : ApplicationStreamFrame :=
  options.frame streamId 0 .opening none (options.chunks print).isEmpty

/-- The data frames. -/
def dataFrames : List ApplicationStreamFrame :=
  (options.chunks print).mapIdx fun index chunk =>
    options.frame streamId (index + 1) .data (some chunk)
      (decide (index + 1 = (options.chunks print).length))

/-- The closing frame. -/
def closeFrame : ApplicationStreamFrame :=
  options.frame streamId ((options.chunks print).length + 1) .close none true

/-- The frames `send_application_stream` publishes. -/
def frames : List ApplicationStreamFrame :=
  options.openFrame print streamId :: options.dataFrames print streamId ++
    [options.closeFrame print streamId]

end ApplicationStreamSendOptions

/-! ## Assembling -/

/-- The parts up to the last, one after another. -/
def joinChunks (chunks : BTreeMap ℕ String) (finalSequence : ℕ) : Option String :=
  (List.range' 1 finalSequence).foldlM
    (fun joined sequence => (chunks[sequence]?).map (joined ++ ·)) ""

/-- The buffer a frame starts. -/
def ApplicationStreamBuffer.start (event : ApplicationRouteEvent) (frame : ApplicationStreamFrame) :
    ApplicationStreamBuffer :=
  ⟨event.sender, event.transport, frame.namespaceName, frame.protocol, frame.topic, frame.metadata,
    ∅, none⟩

/-- Gather a data frame. -/
def ApplicationStreamBuffer.gather (buffer : ApplicationStreamBuffer)
    (frame : ApplicationStreamFrame) : ApplicationStreamBuffer :=
  { buffer with
    chunks :=
      match frame.chunk with
      | some chunk =>
        if buffer.chunks.contains frame.sequence then buffer.chunks
        else buffer.chunks.insert frame.sequence chunk
      | none => buffer.chunks
    finalSequence := if frame.finalChunk then some frame.sequence else buffer.finalSequence }

/-- The event of a buffer that has all parts of a text that parses. -/
def ApplicationStreamBuffer.completed (parse : String → Option JsonValue) (streamId : String)
    (buffer : ApplicationStreamBuffer) : Option ApplicationStreamEvent := do
  let finalSequence ← buffer.finalSequence
  let joined ← joinChunks buffer.chunks finalSequence
  let body ← parse joined
  some ⟨streamId, buffer.sender, buffer.transport, buffer.namespaceName, buffer.protocol,
    buffer.topic, body, buffer.metadata⟩

namespace ApplicationStreamAssembler

variable (parse : String → Option JsonValue)

/-- `try_complete`. -/
def tryComplete (streamId : String) (assembler : ApplicationStreamAssembler) :
    Option ApplicationStreamEvent × ApplicationStreamAssembler :=
  match (assembler.buffers[streamId]?).bind (·.completed parse streamId) with
  | none => (none, assembler)
  | some event => (some event, ⟨assembler.buffers.erase streamId⟩)

/-- `accept_frame`. -/
def acceptFrame (event : ApplicationRouteEvent) (frame : ApplicationStreamFrame)
    (assembler : ApplicationStreamAssembler) :
    Option ApplicationStreamEvent × ApplicationStreamAssembler :=
  match frame.kind with
  | .opening => (none, ⟨assembler.buffers.insert frame.streamId (.start event frame)⟩)
  | .data =>
    let buffer := (assembler.buffers[frame.streamId]?).getD (.start event frame)
    tryComplete parse frame.streamId
      ⟨assembler.buffers.insert frame.streamId (buffer.gather frame)⟩
  | .close =>
    let buffers :=
      match assembler.buffers[frame.streamId]? with
      | none => assembler.buffers
      | some buffer =>
        if buffer.finalSequence.isNone && decide (0 < frame.sequence) then
          assembler.buffers.insert frame.streamId
            { buffer with finalSequence := some (frame.sequence - 1) }
        else assembler.buffers
    tryComplete parse frame.streamId ⟨buffers⟩
  | .ack | .nack | .error => (none, assembler)

/-- A frame that arrives with an event. -/
structure Arrival where
  event : ApplicationRouteEvent
  frame : ApplicationStreamFrame

/-- The events of arrivals one after another. -/
def run : ApplicationStreamAssembler → List Arrival → List ApplicationStreamEvent
  | _, [] => []
  | assembler, arrival :: rest =>
    let accepted := acceptFrame parse arrival.event arrival.frame assembler
    accepted.1.toList ++ run accepted.2 rest

end ApplicationStreamAssembler

/-! ## The parts make up the text -/

/-- Texts put together are their characters one after another. -/
theorem toList_foldl_append (texts : List String) (text : String) :
    (texts.foldl (· ++ ·) text).toList = text.toList ++ (texts.map String.toList).flatten := by
  induction texts generalizing text with
  | nil => simp
  | cons first rest ih =>
    rw [List.foldl_cons, ih, String.toList_append, List.map_cons, List.flatten_cons,
      List.append_assoc]

private theorem flatten_chunkStep (maxChars : ℕ) (characters : List Char)
    (st : List String × List Char) :
    let after := characters.foldl (chunkStep maxChars) st
    (after.1.map String.toList).flatten ++ after.2 =
      (st.1.map String.toList).flatten ++ st.2 ++ characters := by
  induction characters generalizing st with
  | nil => simp
  | cons character rest ih =>
    have hstep : ((chunkStep maxChars st character).1.map String.toList).flatten ++
        (chunkStep maxChars st character).2 =
          (st.1.map String.toList).flatten ++ st.2 ++ [character] := by
      rw [chunkStep]
      split <;> simp
    dsimp only at ih ⊢
    rw [List.foldl_cons, ih, hstep]
    simp

private theorem foldl_chunkString (value : String) (maxChars : ℕ) :
    (chunkString value maxChars).foldl (· ++ ·) "" = value := by
  rw [← String.toList_inj, toList_foldl_append, chunkString]
  split
  · rename_i hempty
    rw [hempty]
    rfl
  · have hflatten := flatten_chunkStep maxChars value.toList ([], [])
    dsimp only at hflatten ⊢
    split
    · rename_i hrest
      rw [List.isEmpty_iff] at hrest
      rw [hrest] at hflatten
      simpa using hflatten
    · simpa using hflatten

private theorem chunkString_ne_nil (value : String) (maxChars : ℕ) :
    chunkString value maxChars ≠ [] := by
  intro hnil
  have hvalue := foldl_chunkString value maxChars
  rw [hnil] at hvalue
  rw [chunkString, if_pos (by simpa using hvalue.symm)] at hnil
  cases hnil

/-- When all parts are there, they are put together. -/
theorem joinChunks_eq_some {chunks : BTreeMap ℕ String} {parts : List String}
    (h : ∀ j, j < parts.length → chunks[j + 1]? = parts[j]?) :
    joinChunks chunks parts.length = some (parts.foldl (· ++ ·) "") := by
  have hfold : ∀ (parts : List String) (start : ℕ) (text : String),
      (∀ j, j < parts.length → chunks[start + j]? = parts[j]?) →
      (List.range' start parts.length).foldlM
        (fun joined sequence => (chunks[sequence]?).map (joined ++ ·)) text =
          some (parts.foldl (· ++ ·) text) := by
    intro parts
    induction parts with
    | nil =>
      intro start text _
      rfl
    | cons first rest ih =>
      intro start text h
      have hfirst : chunks[start]? = some first := h 0 (Nat.succ_pos _)
      rw [List.length_cons, List.range'_succ, List.foldlM_cons, hfirst]
      refine ih (start + 1) (text ++ first) fun j hj => ?_
      have hnext := h (j + 1) (Nat.succ_lt_succ hj)
      rwa [List.getElem?_cons_succ, show start + (j + 1) = start + 1 + j by omega] at hnext
  refine hfold parts 1 "" fun j hj => ?_
  rw [Nat.add_comm]
  exact h j hj

/-- When a part is wanting, nothing is put together. -/
theorem joinChunks_eq_none {chunks : BTreeMap ℕ String} {finalSequence sequence : ℕ}
    (hpos : 0 < sequence) (hle : sequence ≤ finalSequence) (h : chunks[sequence]? = none) :
    joinChunks chunks finalSequence = none := by
  have hfold : ∀ (l : List ℕ) (text : String), sequence ∈ l →
      l.foldlM (fun joined sequence => (chunks[sequence]?).map (joined ++ ·)) text = none := by
    intro l
    induction l with
    | nil => exact fun _ hin => absurd hin List.not_mem_nil
    | cons first rest ih =>
      intro text hin
      rw [List.foldlM_cons]
      rcases List.mem_cons.mp hin with rfl | hin
      · rw [h]
        rfl
      · cases chunks[first]? with
        | none => rfl
        | some chunk => exact ih _ hin
  refine hfold _ _ (List.mem_range'_1.mpr ⟨hpos, by omega⟩)

/-! ## The buffer of a stream -/

/-- What a frame means for the gathering of a stream. -/
def streamSignal (streamId : String) (frame : ApplicationStreamFrame) : Signal ℕ :=
  if frame.streamId = streamId then
    match frame.kind with
    | .opening => .reset
    | .data => .item frame.sequence
    | .ack | .nack | .close | .error => .idle
  else .idle

namespace ApplicationStreamSendOptions

variable (options : ApplicationStreamSendOptions) (print : JsonValue → String)
  (parse : String → Option JsonValue) (streamId : String)

/-- The numbers of the data frames. -/
def goal : Finset ℕ := Finset.Icc 1 (options.chunks print).length

/-- The event has what the stream was asked to send. -/
structure Original (event : ApplicationStreamEvent) : Prop where
  streamId : event.streamId = streamId
  namespaceName : event.namespaceName = options.namespaceName
  protocol : event.protocol = options.protocol
  topic : event.topic = options.topic
  body : event.body = options.body
  metadata : event.metadata = options.metadata

/-- The buffer has the parts of the given numbers. -/
structure Gathers (buffer : ApplicationStreamBuffer) (S : Finset ℕ) : Prop where
  namespaceName : buffer.namespaceName = options.namespaceName
  protocol : buffer.protocol = options.protocol
  topic : buffer.topic = options.topic
  metadata : buffer.metadata = options.metadata
  /-- The parts. -/
  chunks : ∀ i, buffer.chunks[i]? = if i ∈ S then (options.chunks print)[i - 1]? else none
  /-- The number of the last part, when it is known. -/
  final : buffer.finalSequence = none ∨
    buffer.finalSequence = some (options.chunks print).length
  /-- With the last part its number is known. -/
  last : (options.chunks print).length ∈ S →
    buffer.finalSequence = some (options.chunks print).length

/-- The assembler has the parts of the given numbers of the stream. -/
def Holds (assembler : ApplicationStreamAssembler) (S : Finset ℕ) : Prop :=
  match assembler.buffers[streamId]? with
  | none => S = ∅
  | some buffer => options.Gathers print buffer S

variable {options print parse streamId} {assembler : ApplicationStreamAssembler}
  {buffer : ApplicationStreamBuffer} {S : Finset ℕ}

private theorem goal_nonempty : (options.goal print).Nonempty := by
  refine ⟨1, Finset.mem_Icc.mpr ⟨le_rfl, List.length_pos_iff.mpr ?_⟩⟩
  exact chunkString_ne_nil _ _

private theorem holds_of_buffer (hbuffer : assembler.buffers[streamId]? = some buffer) :
    options.Holds print streamId assembler S ↔ options.Gathers print buffer S := by
  rw [Holds, hbuffer]

/-- A buffer that lacks a part is not completed. -/
theorem Gathers.completed_eq_none (h : options.Gathers print buffer S)
    (hS : S ⊂ options.goal print) : buffer.completed parse streamId = none := by
  rw [ApplicationStreamBuffer.completed]
  rcases h.final with hfinal | hfinal
  · rw [hfinal]
    rfl
  · obtain ⟨i, hi, hout⟩ := Finset.exists_of_ssubset hS
    obtain ⟨hpos, hle⟩ := Finset.mem_Icc.mp hi
    have hjoined := joinChunks_eq_none hpos hle ((h.chunks i).trans (if_neg hout))
    rw [hfinal]
    simp only [Option.bind_eq_bind, Option.bind_some, hjoined, Option.bind_none]

/-- A buffer with all parts is completed with the value that the text parses to. -/
theorem Gathers.completed_eq (h : options.Gathers print buffer (options.goal print))
    (streamId : String) :
    buffer.completed parse streamId = (parse (print options.body)).map fun body =>
      ⟨streamId, buffer.sender, buffer.transport, buffer.namespaceName, buffer.protocol,
        buffer.topic, body, buffer.metadata⟩ := by
  have hlength : 0 < (options.chunks print).length :=
    List.length_pos_iff.mpr (chunkString_ne_nil _ _)
  have hfinal := h.last (Finset.mem_Icc.mpr ⟨hlength, le_rfl⟩)
  have hjoined : joinChunks buffer.chunks (options.chunks print).length =
      some (print options.body) := by
    have hparts : ∀ j, j < (options.chunks print).length →
        buffer.chunks[j + 1]? = (options.chunks print)[j]? := fun j hj =>
      (h.chunks (j + 1)).trans (if_pos (Finset.mem_Icc.mpr ⟨Nat.succ_pos j, hj⟩))
    rw [joinChunks_eq_some hparts, ApplicationStreamSendOptions.chunks, foldl_chunkString]
  rw [ApplicationStreamBuffer.completed, hfinal]
  simp only [Option.bind_eq_bind, Option.bind_some, hjoined]
  cases parse (print options.body) <;> rfl

private theorem Gathers.completed_eq_some (hround : parse (print options.body) = some options.body)
    (h : options.Gathers print buffer (options.goal print)) (streamId : String) :
    ∃ event, options.Original streamId event ∧
      buffer.completed parse streamId = some event := by
  rw [h.completed_eq, hround]
  exact ⟨_, ⟨rfl, h.namespaceName, h.protocol, h.topic, rfl, h.metadata⟩, rfl⟩

private theorem mem_frames {frame : ApplicationStreamFrame} :
    frame ∈ options.frames print streamId ↔
      frame = options.openFrame print streamId ∨
      (∃ j chunk, (options.chunks print)[j]? = some chunk ∧
        frame = options.frame streamId (j + 1) .data (some chunk)
          (decide (j + 1 = (options.chunks print).length))) ∨
      frame = options.closeFrame print streamId := by
  rw [frames, List.mem_append, List.mem_cons, List.mem_singleton, or_assoc, dataFrames,
    List.mem_mapIdx]
  refine or_congr_right (or_congr_left ⟨?_, ?_⟩)
  · rintro ⟨j, hj, rfl⟩
    exact ⟨j, _, List.getElem?_eq_getElem hj, rfl⟩
  · rintro ⟨j, chunk, hchunk, rfl⟩
    obtain ⟨hj, rfl⟩ := List.getElem?_eq_some_iff.mp hchunk
    exact ⟨j, hj, rfl⟩

private theorem signal_openFrame :
    streamSignal streamId (options.openFrame print streamId) = .reset :=
  if_pos rfl

private theorem signal_dataFrame (sequence : ℕ) (chunk : Option String) (finalChunk : Bool) :
    streamSignal streamId (options.frame streamId sequence .data chunk finalChunk) =
      .item sequence :=
  if_pos rfl

private theorem signal_closeFrame :
    streamSignal streamId (options.closeFrame print streamId) = .idle :=
  if_pos rfl

/-- A buffer started by a frame of the stream has nothing gathered. -/
theorem gathers_start (event : ApplicationRouteEvent) (sequence : ℕ)
    (kind : ApplicationStreamFrameKind) (chunk : Option String) (finalChunk : Bool) :
    options.Gathers print
      (.start event (options.frame streamId sequence kind chunk finalChunk)) ∅ where
  namespaceName := rfl
  protocol := rfl
  topic := rfl
  metadata := rfl
  chunks i := by
    rw [if_neg (Finset.notMem_empty i)]
    exact Std.ExtTreeMap.getElem?_eq_none Std.ExtTreeMap.not_mem_empty
  final := .inl rfl
  last h := absurd h (Finset.notMem_empty _)

private theorem Gathers.gather (h : options.Gathers print buffer S) (streamId : String) {j : ℕ}
    {chunk : String} (hchunk : (options.chunks print)[j]? = some chunk) :
    options.Gathers print (buffer.gather (options.frame streamId (j + 1) .data (some chunk)
      (decide (j + 1 = (options.chunks print).length)))) (insert (j + 1) S) where
  namespaceName := h.namespaceName
  protocol := h.protocol
  topic := h.topic
  metadata := h.metadata
  chunks i := by
    have hknown : buffer.chunks.contains (j + 1) = decide (j + 1 ∈ S) := by
      rw [Std.ExtTreeMap.contains_eq_isSome_getElem?, h.chunks]
      split
      · rename_i hin
        rw [Nat.add_sub_cancel, hchunk, decide_eq_true hin]
        rfl
      · rename_i hout
        rw [decide_eq_false hout]
        rfl
    change (if buffer.chunks.contains (j + 1) then buffer.chunks
      else buffer.chunks.insert (j + 1) chunk)[i]? = _
    rw [hknown]
    by_cases hin : j + 1 ∈ S
    · rw [decide_eq_true hin, if_pos rfl, h.chunks, Finset.insert_eq_of_mem hin]
    · rw [decide_eq_false hin, if_neg Bool.false_ne_true, BTreeMap.get_insert]
      by_cases heq : j + 1 = i
      · subst heq
        rw [if_pos rfl, if_pos (Finset.mem_insert_self _ _), Nat.add_sub_cancel, hchunk]
      · rw [if_neg heq, h.chunks]
        simp only [Finset.mem_insert, Ne.symm heq, false_or]
  final := by
    change (if decide (j + 1 = (options.chunks print).length) then some (j + 1)
      else buffer.finalSequence) = none ∨ (if decide (j + 1 = (options.chunks print).length) then
        some (j + 1) else buffer.finalSequence) = some (options.chunks print).length
    by_cases hlast : j + 1 = (options.chunks print).length
    · rw [decide_eq_true hlast, if_pos rfl, hlast]
      exact .inr rfl
    · rw [decide_eq_false hlast]
      exact h.final
  last hin := by
    change (if decide (j + 1 = (options.chunks print).length) then some (j + 1)
      else buffer.finalSequence) = some (options.chunks print).length
    by_cases hlast : j + 1 = (options.chunks print).length
    · rw [decide_eq_true hlast, if_pos rfl, hlast]
    · rw [decide_eq_false hlast]
      exact h.last ((Finset.mem_insert.mp hin).resolve_left (Ne.symm hlast))

/-- The number of the last part gets known. -/
theorem Gathers.close (h : options.Gathers print buffer S) :
    options.Gathers print
      { buffer with finalSequence := some (options.chunks print).length } S where
  namespaceName := h.namespaceName
  protocol := h.protocol
  topic := h.topic
  metadata := h.metadata
  chunks := h.chunks
  final := .inr rfl
  last _ := rfl

/-- The outcome of a frame: what is gathered then, and the event when the gathering is completed. -/
structure Stepped (options : ApplicationStreamSendOptions) (print : JsonValue → String)
    (streamId : String) (out : Option ApplicationStreamEvent × ApplicationStreamAssembler)
    (next : Finset ℕ × Bool) : Prop where
  /-- What is gathered. -/
  holds : options.Holds print streamId out.2 next.1
  /-- The event. -/
  emits : if next.2 then ∃ event, out.1 = some event ∧ options.Original streamId event
    else out.1 = none

/-- The parts that arrive are of the text. -/
theorem mem_goal_of_signal {frame : ApplicationStreamFrame}
    (hframe : frame.streamId = streamId → frame ∈ options.frames print streamId) {i : ℕ}
    (hsignal : streamSignal streamId frame = .item i) : i ∈ options.goal print := by
  by_cases hown : frame.streamId = streamId
  · rcases mem_frames.mp (hframe hown) with rfl | ⟨j, chunk, hchunk, rfl⟩ | rfl
    · rw [signal_openFrame] at hsignal
      cases hsignal
    · rw [signal_dataFrame] at hsignal
      cases hsignal
      exact Finset.mem_Icc.mpr ⟨Nat.succ_pos j, (List.getElem?_eq_some_iff.mp hchunk).1⟩
    · rw [signal_closeFrame] at hsignal
      cases hsignal
  · rw [streamSignal, if_neg hown] at hsignal
    cases hsignal

/-- With an arrival what is there stays a part of the goal. -/
theorem received_subset (hS : S ⊆ options.goal print) {frame : ApplicationStreamFrame}
    (hframe : frame.streamId = streamId → frame ∈ options.frames print streamId) :
    Gathering.received S (streamSignal streamId frame) ⊆ options.goal print := by
  cases hsignal : streamSignal streamId frame with
  | reset => exact Finset.empty_subset _
  | idle => exact hS
  | item i => exact Finset.insert_subset (mem_goal_of_signal hframe hsignal) hS

/-- A frame of the stream is gathered, and then it is tried to complete the stream. -/
theorem acceptFrame_eq (parse : String → Option JsonValue)
    (h : options.Holds print streamId assembler S)
    (event : ApplicationRouteEvent) {frame : ApplicationStreamFrame}
    (hframe : frame ∈ options.frames print streamId) :
    ∃ gathering : ApplicationStreamAssembler,
      options.Holds print streamId gathering
          (Gathering.received S (streamSignal streamId frame)) ∧
        assembler.acceptFrame parse event frame = gathering.tryComplete parse streamId := by
  have hinsert : ∀ buffer, (assembler.buffers.insert streamId buffer)[streamId]? = some buffer :=
    fun buffer => (BTreeMap.get_insert _ _ _ _).trans (if_pos rfl)
  rcases mem_frames.mp hframe with rfl | ⟨j, chunk, hchunk, rfl⟩ | rfl
  · rw [signal_openFrame]
    let buffer := ApplicationStreamBuffer.start event (options.openFrame print streamId)
    refine ⟨⟨assembler.buffers.insert streamId buffer⟩,
      (holds_of_buffer (hinsert buffer)).mpr (gathers_start ..), ?_⟩
    rw [ApplicationStreamAssembler.tryComplete, hinsert]
    rfl
  · have hgathers : options.Gathers print ((assembler.buffers[streamId]?).getD
        (.start event (options.frame streamId (j + 1) .data (some chunk)
          (decide (j + 1 = (options.chunks print).length))))) S := by
      rw [Holds] at h
      cases hbuffer : assembler.buffers[streamId]? with
      | none =>
        rw [hbuffer] at h
        rw [show S = ∅ from h]
        exact gathers_start ..
      | some buffer =>
        rw [hbuffer] at h
        exact h
    rw [signal_dataFrame]
    exact ⟨_, (holds_of_buffer (hinsert _)).mpr (hgathers.gather streamId hchunk), rfl⟩
  · rw [signal_closeFrame]
    refine ⟨⟨match assembler.buffers[streamId]? with
      | none => assembler.buffers
      | some buffer =>
        if buffer.finalSequence.isNone && true then assembler.buffers.insert streamId
          { buffer with finalSequence := some (options.chunks print).length }
        else assembler.buffers⟩, ?_, rfl⟩
    cases hbuffer : assembler.buffers[streamId]? with
    | none => exact h
    | some buffer =>
      dsimp only
      split
      · exact (holds_of_buffer (hinsert _)).mpr ((holds_of_buffer hbuffer).mp h).close
      · exact h

/-- Trying to complete gives the event when all parts are there. -/
theorem stepped_tryComplete (hround : parse (print options.body) = some options.body)
    (h : options.Holds print streamId assembler S) (hS : S ⊆ options.goal print) :
    options.Stepped print streamId (assembler.tryComplete parse streamId)
      (if S = options.goal print then (∅, true) else (S, false)) := by
  rw [ApplicationStreamAssembler.tryComplete]
  cases hbuffer : assembler.buffers[streamId]? with
  | none =>
    have hempty : S = ∅ := by
      rw [Holds, hbuffer] at h
      exact h
    rw [if_neg (hempty ▸ goal_nonempty.ne_empty.symm)]
    exact ⟨h, rfl⟩
  | some buffer =>
    have hgathers := (holds_of_buffer hbuffer).mp h
    rw [Option.bind_some]
    split_ifs with hgoal
    · obtain ⟨event, horiginal, hsome⟩ := (hgoal ▸ hgathers).completed_eq_some hround streamId
      rw [hsome]
      refine ⟨?_, event, rfl, horiginal⟩
      rw [Holds, BTreeMap.get_erase, if_pos rfl]
    · rw [hgathers.completed_eq_none (lt_of_le_of_ne hS hgoal)]
      exact ⟨h, rfl⟩

/-- Trying to complete does nothing when the text does not parse. -/
theorem tryComplete_of_none (hnone : parse (print options.body) = none)
    (h : options.Holds print streamId assembler S) (hS : S ⊆ options.goal print) :
    assembler.tryComplete parse streamId = (none, assembler) := by
  rw [ApplicationStreamAssembler.tryComplete]
  cases hbuffer : assembler.buffers[streamId]? with
  | none => rfl
  | some buffer =>
    have hgathers := (holds_of_buffer hbuffer).mp h
    have hcompleted : buffer.completed parse streamId = none := by
      rcases eq_or_ne S (options.goal print) with rfl | hgoal
      · rw [hgathers.completed_eq streamId, hnone, Option.map_none]
      · exact hgathers.completed_eq_none (lt_of_le_of_ne hS hgoal)
    rw [Option.bind_some, hcompleted]

/-- A frame of the stream is a step of the gathering. -/
theorem stepped_acceptFrame (hround : parse (print options.body) = some options.body)
    (h : options.Holds print streamId assembler S) (hS : S ⊂ options.goal print)
    (event : ApplicationRouteEvent) {frame : ApplicationStreamFrame}
    (hframe : frame ∈ options.frames print streamId) :
    options.Stepped print streamId (assembler.acceptFrame parse event frame)
      (Gathering.step (options.goal print) S (streamSignal streamId frame)) := by
  obtain ⟨gathering, hholds, heq⟩ := acceptFrame_eq parse h event hframe
  rw [heq, Gathering.step_eq goal_nonempty hS.ne]
  exact stepped_tryComplete hround hholds (received_subset hS.1 fun _ => hframe)

/-- Trying to complete a stream leaves the others, and the event is of the stream. -/
theorem tryComplete_other (parse : String → Option JsonValue) {other : String}
    (hother : other ≠ streamId) :
    (assembler.tryComplete parse other).2.buffers[streamId]? = assembler.buffers[streamId]? ∧
      ∀ e ∈ (assembler.tryComplete parse other).1, e.streamId ≠ streamId := by
  rw [ApplicationStreamAssembler.tryComplete]
  split
  · exact ⟨rfl, by simp⟩
  · rename_i event hevent
    refine ⟨(BTreeMap.get_erase _ _ _).trans (if_neg hother), ?_⟩
    rintro _ ⟨⟩
    obtain ⟨buffer, -, hcompleted⟩ := Option.bind_eq_some_iff.mp hevent
    simp only [ApplicationStreamBuffer.completed, Option.bind_eq_bind, Option.bind_eq_some_iff]
      at hcompleted
    obtain ⟨_, -, _, -, _, -, heq⟩ := hcompleted
    cases heq
    exact hother

private theorem acceptFrame_other (parse : String → Option JsonValue)
    (event : ApplicationRouteEvent)
    {frame : ApplicationStreamFrame} (hframe : frame.streamId ≠ streamId) :
    (assembler.acceptFrame parse event frame).2.buffers[streamId]? =
        assembler.buffers[streamId]? ∧
      ∀ e ∈ (assembler.acceptFrame parse event frame).1, e.streamId ≠ streamId := by
  have hinsert : ∀ buffer, (assembler.buffers.insert frame.streamId buffer)[streamId]? =
      assembler.buffers[streamId]? := fun buffer =>
    (BTreeMap.get_insert _ _ _ _).trans (if_neg hframe)
  rw [ApplicationStreamAssembler.acceptFrame]
  split
  · exact ⟨hinsert _, by simp⟩
  · obtain ⟨hleft, hevent⟩ := tryComplete_other parse hframe
    exact ⟨hleft.trans (hinsert _), hevent⟩
  · obtain ⟨hleft, hevent⟩ := tryComplete_other parse hframe
    refine ⟨hleft.trans ?_, hevent⟩
    dsimp only
    split
    · rfl
    · split
      · exact hinsert _
      · rfl
  all_goals exact ⟨rfl, by simp⟩

private theorem arrival_step (hround : parse (print options.body) = some options.body)
    (h : options.Holds print streamId assembler S) (hS : S ⊂ options.goal print)
    {arrival : ApplicationStreamAssembler.Arrival}
    (harrival : arrival.frame.streamId = streamId →
      arrival.frame ∈ options.frames print streamId) :
    let out := assembler.acceptFrame parse arrival.event arrival.frame
    let next := Gathering.step (options.goal print) S (streamSignal streamId arrival.frame)
    options.Holds print streamId out.2 next.1 ∧
      (out.1.toList.filter (·.streamId = streamId)).length = next.2.toNat ∧
      ∀ e ∈ out.1.toList.filter (·.streamId = streamId), options.Original streamId e := by
  intro out next
  by_cases hown : arrival.frame.streamId = streamId
  · obtain ⟨hholds, hemits⟩ := stepped_acceptFrame hround h hS arrival.event (harrival hown)
    refine ⟨hholds, ?_⟩
    split at hemits
    · rename_i hdone
      obtain ⟨event, hevent, horiginal⟩ := hemits
      have hlist : out.1.toList.filter (·.streamId = streamId) = [event] := by
        rw [show out.1 = some event from hevent]
        simp [horiginal.streamId]
      rw [hlist, show next.2 = true from hdone]
      refine ⟨rfl, fun e he => ?_⟩
      rw [List.mem_singleton.mp he]
      exact horiginal
    · rename_i hdone
      rw [show out.1 = none from hemits, show next.2 = false from Bool.eq_false_iff.mpr hdone]
      exact ⟨rfl, by simp⟩
  · obtain ⟨hleft, hevent⟩ := acceptFrame_other parse arrival.event hown
    have hnext : next = (S, false) := by
      simp only [next, streamSignal, if_neg hown]
      rfl
    have hlist : out.1.toList.filter (·.streamId = streamId) = [] := by
      rw [List.filter_eq_nil_iff]
      intro e he
      rw [decide_eq_true_iff]
      exact hevent e (Option.mem_toList.mp he)
    rw [hnext, hlist]
    refine ⟨?_, rfl, by simp⟩
    rw [Holds, hleft]
    exact h

/-- The events of the stream along arrivals: one for each completion, each with what was sent. -/
theorem events_run (hround : parse (print options.body) = some options.body)
    (h : options.Holds print streamId assembler S) (hS : S ⊂ options.goal print)
    {arrivals : List ApplicationStreamAssembler.Arrival}
    (harrivals : ∀ a ∈ arrivals, a.frame.streamId = streamId →
      a.frame ∈ options.frames print streamId) :
    let events := (assembler.run parse arrivals).filter (·.streamId = streamId)
    events.length = Gathering.completions (options.goal print) S
        (arrivals.map fun a => streamSignal streamId a.frame) ∧
      ∀ e ∈ events, options.Original streamId e := by
  induction arrivals generalizing assembler S with
  | nil => exact ⟨rfl, by simp [ApplicationStreamAssembler.run]⟩
  | cons arrival rest ih =>
    have harrival := harrivals arrival List.mem_cons_self
    obtain ⟨hholds, hcount, horiginal⟩ := arrival_step hround h hS harrival
    have hnext := Gathering.step_ssubset goal_nonempty hS
      fun i hi => mem_goal_of_signal harrival hi
    obtain ⟨hcountRest, horiginalRest⟩ :=
      ih hholds hnext fun a ha => harrivals a (List.mem_cons_of_mem _ ha)
    rw [ApplicationStreamAssembler.run, List.map_cons, Gathering.completions]
    simp only [List.filter_append, List.length_append, List.mem_append]
    refine ⟨by rw [hcount, hcountRest], ?_⟩
    rintro e (he | he)
    · exact horiginal e he
    · exact horiginalRest e he

/-- A text that does not parse gives no event. -/
theorem events_run_of_none (hnone : parse (print options.body) = none)
    (h : options.Holds print streamId assembler S) (hS : S ⊆ options.goal print)
    {arrivals : List ApplicationStreamAssembler.Arrival}
    (harrivals : ∀ a ∈ arrivals, a.frame.streamId = streamId →
      a.frame ∈ options.frames print streamId) :
    (assembler.run parse arrivals).filter (·.streamId = streamId) = [] := by
  induction arrivals generalizing assembler S with
  | nil => rfl
  | cons arrival rest ih =>
    have hrest : ∀ a ∈ rest, a.frame.streamId = streamId →
        a.frame ∈ options.frames print streamId :=
      fun a ha => harrivals a (List.mem_cons_of_mem _ ha)
    have harrival := harrivals arrival List.mem_cons_self
    rw [ApplicationStreamAssembler.run, List.filter_append]
    by_cases hown : arrival.frame.streamId = streamId
    · obtain ⟨gathering, hholds, heq⟩ :=
        acceptFrame_eq parse h arrival.event (harrival hown)
      have hsubset := received_subset hS harrival
      rw [heq, tryComplete_of_none hnone hholds hsubset]
      exact ih hholds hsubset hrest
    · obtain ⟨hleft, hevent⟩ := acceptFrame_other parse arrival.event hown
      have hnext : options.Holds print streamId
          (assembler.acceptFrame parse arrival.event arrival.frame).2 S := by
        rw [Holds, hleft]
        exact h
      rw [ih hnext hS hrest, List.append_nil, List.filter_eq_nil_iff]
      intro e he
      rw [decide_eq_true_iff]
      exact hevent e (Option.mem_toList.mp he)

/-- The events have the body that the text parses to. -/
theorem body_of_event (hnew : assembler.buffers[streamId]? = none)
    {arrivals : List ApplicationStreamAssembler.Arrival}
    (harrivals : ∀ a ∈ arrivals, a.frame.streamId = streamId →
      a.frame ∈ options.frames print streamId) {e : ApplicationStreamEvent}
    (he : e ∈ (assembler.run parse arrivals).filter (·.streamId = streamId)) :
    parse (print options.body) = some e.body := by
  have hholds : options.Holds print streamId assembler ∅ := by
    rw [Holds, hnew]
  cases hparse : parse (print options.body) with
  | none =>
    rw [events_run_of_none hparse hholds (Finset.empty_subset _) harrivals] at he
    cases he
  | some value =>
    -- the frames are those of a stream that sends the value and prints it as this text
    let sent : ApplicationStreamSendOptions := { options with body := value }
    let text : JsonValue → String := fun _ => print options.body
    have hsent : sent.Holds text streamId assembler ∅ := by
      rw [Holds, hnew]
    have hround : parse (text sent.body) = some sent.body := hparse
    have horiginal : sent.Original streamId e :=
      (events_run hround hsent (Finset.empty_ssubset.mpr goal_nonempty) harrivals).2 e he
    exact congrArg some horiginal.body.symm

/-- A stretch of arrivals without the opening frame that has all data frames. -/
def Carries (options : ApplicationStreamSendOptions) (print : JsonValue → String)
    (streamId : String) (stretch : List ApplicationStreamAssembler.Arrival) : Prop :=
  (∀ a ∈ stretch, a.frame ≠ options.openFrame print streamId) ∧
    ∀ frame ∈ options.dataFrames print streamId, ∃ a ∈ stretch, a.frame = frame

/-- Among arrivals of the stream's frames, the signals say which frame arrived. -/
theorem covers_iff_carries {stretch : List ApplicationStreamAssembler.Arrival}
    (hstretch : ∀ a ∈ stretch, a.frame.streamId = streamId →
      a.frame ∈ options.frames print streamId) :
    Gathering.Covers (options.goal print)
        (stretch.map fun a => streamSignal streamId a.frame) ↔
      options.Carries print streamId stretch := by
  -- the arrivals that reset or count as an item are the opening frame and the data frames
  have hreset : ∀ a ∈ stretch, streamSignal streamId a.frame = .reset →
      a.frame = options.openFrame print streamId := by
    intro a ha hsignal
    by_cases hown : a.frame.streamId = streamId
    · rcases mem_frames.mp (hstretch a ha hown) with heq | ⟨j, chunk, -, heq⟩ | heq
      · exact heq
      · rw [heq, signal_dataFrame] at hsignal
        cases hsignal
      · rw [heq, signal_closeFrame] at hsignal
        cases hsignal
    · rw [streamSignal, if_neg hown] at hsignal
      cases hsignal
  have hitem : ∀ a ∈ stretch, ∀ j chunk, (options.chunks print)[j]? = some chunk →
      streamSignal streamId a.frame = .item (j + 1) →
      a.frame = options.frame streamId (j + 1) .data (some chunk)
        (decide (j + 1 = (options.chunks print).length)) := by
    intro a ha j chunk hchunk hsignal
    by_cases hown : a.frame.streamId = streamId
    · rcases mem_frames.mp (hstretch a ha hown) with heq | ⟨k, other, hother, heq⟩ | heq
      · rw [heq, signal_openFrame] at hsignal
        cases hsignal
      · rw [heq, signal_dataFrame, Signal.item.injEq, Nat.add_right_cancel_iff] at hsignal
        subst hsignal
        rw [hchunk] at hother
        cases hother
        exact heq
      · rw [heq, signal_closeFrame] at hsignal
        cases hsignal
    · rw [streamSignal, if_neg hown] at hsignal
      cases hsignal
  constructor
  · rintro ⟨hfree, hall⟩
    refine ⟨fun a ha heq => hfree (List.mem_map.mpr ⟨a, ha, ?_⟩), fun frame hframe => ?_⟩
    · rw [heq, signal_openFrame]
    · obtain ⟨j, hj, rfl⟩ := List.mem_mapIdx.mp hframe
      obtain ⟨a, ha, hsignal⟩ := List.mem_map.mp
        (hall (j + 1) (Finset.mem_Icc.mpr ⟨Nat.succ_pos j, hj⟩))
      exact ⟨a, ha, hitem a ha j _ (List.getElem?_eq_getElem hj) hsignal⟩
  · rintro ⟨hfree, hall⟩
    refine ⟨fun hin => ?_, fun i hi => ?_⟩
    · obtain ⟨a, ha, hsignal⟩ := List.mem_map.mp hin
      exact hfree a ha (hreset a ha hsignal)
    · obtain ⟨hpos, hle⟩ := Finset.mem_Icc.mp hi
      obtain ⟨j, rfl⟩ : ∃ j, i = j + 1 := ⟨i - 1, by omega⟩
      obtain ⟨a, ha, heq⟩ := hall _ (List.mem_mapIdx.mpr ⟨j, hle, rfl⟩)
      refine List.mem_map.mpr ⟨a, ha, ?_⟩
      rw [heq, signal_dataFrame]

/-- A stretch of signals is one of arrivals. -/
theorem exists_of_map_eq {α β : Type} {f : α → β} {l : List α} {a s b : List β}
    (h : l.map f = a ++ s ++ b) :
    ∃ a' s' b', l = a' ++ s' ++ b' ∧ s'.map f = s ∧ b'.map f = b := by
  obtain ⟨as, b', rfl, has, hb⟩ := List.map_eq_append_iff.mp h
  obtain ⟨a', s', rfl, -, hs⟩ := List.map_eq_append_iff.mp has
  exact ⟨a', s', b', rfl, hs, hb⟩

/-- The stream gives one event, with what was sent, exactly when its text parses to the body, some
stretch of arrivals without the opening frame has all data frames, and no two such stretches come
one after the other. -/
theorem one_event_iff (hnew : assembler.buffers[streamId]? = none)
    {arrivals : List ApplicationStreamAssembler.Arrival}
    (harrivals : ∀ a ∈ arrivals, a.frame.streamId = streamId →
      a.frame ∈ options.frames print streamId) :
    (∃ e, (assembler.run parse arrivals).filter (·.streamId = streamId) = [e] ∧
        options.Original streamId e) ↔
      parse (print options.body) = some options.body ∧
        (∃ a s b, arrivals = a ++ s ++ b ∧ options.Carries print streamId s) ∧
        ¬ ∃ a s b t c, arrivals = a ++ s ++ (b ++ t ++ c) ∧ options.Carries print streamId s ∧
          options.Carries print streamId t := by
  have hparses : (∃ e, (assembler.run parse arrivals).filter (·.streamId = streamId) = [e] ∧
      options.Original streamId e) → parse (print options.body) = some options.body := by
    rintro ⟨e, he, horiginal⟩
    have hmem : e ∈ (assembler.run parse arrivals).filter (·.streamId = streamId) := by
      rw [he]
      exact List.mem_singleton.mpr rfl
    rw [body_of_event hnew harrivals hmem, horiginal.body]
  rw [← and_iff_right_of_imp hparses]
  refine and_congr_right fun hround => ?_
  have hholds : options.Holds print streamId assembler ∅ := by
    rw [Holds, hnew]
  obtain ⟨hcount, horiginal⟩ := events_run hround hholds
    (Finset.empty_ssubset.mpr goal_nonempty) harrivals
  have hwithin : Gathering.Within (options.goal print)
      (arrivals.map fun a => streamSignal streamId a.frame) := by
    intro i hi
    obtain ⟨a, ha, hsignal⟩ := List.mem_map.mp hi
    exact mem_goal_of_signal (harrivals a ha) hsignal
  have hone : (∃ e, (assembler.run parse arrivals).filter (·.streamId = streamId) = [e] ∧
      options.Original streamId e) ↔ Gathering.completions (options.goal print) ∅
        (arrivals.map fun a => streamSignal streamId a.frame) = 1 := by
    rw [← hcount]
    constructor
    · rintro ⟨e, he, -⟩
      rw [he]
      rfl
    · intro hlength
      obtain ⟨e, he⟩ := List.length_eq_one_iff.mp hlength
      exact ⟨e, he, horiginal e (he ▸ List.mem_singleton.mpr rfl)⟩
  rw [hone, Gathering.completions_eq_one_iff goal_nonempty hwithin]
  -- the stretches of the signals are stretches of the arrivals
  have hcarries : ∀ s, (∀ x ∈ s, x ∈ arrivals) →
      (Gathering.Covers (options.goal print) (s.map fun a => streamSignal streamId a.frame) ↔
        options.Carries print streamId s) :=
    fun s hs => covers_iff_carries fun a ha => harrivals a (hs a ha)
  refine and_congr ⟨?_, ?_⟩ (not_congr ⟨?_, ?_⟩)
  · rintro ⟨_, _, _, heq, hs⟩
    obtain ⟨a, s, b, rfl, rfl, -⟩ := exists_of_map_eq heq
    exact ⟨a, s, b, rfl, (hcarries s fun x hx => by simp [hx]).mp hs⟩
  · rintro ⟨a, s, b, rfl, hs⟩
    exact ⟨_, _, _, by rw [List.map_append, List.map_append],
      (hcarries s fun x hx => by simp [hx]).mpr hs⟩
  · rintro ⟨_, _, _, _, _, heq, hs, ht⟩
    obtain ⟨a, s, rest, rfl, rfl, hrest⟩ := exists_of_map_eq heq
    obtain ⟨b, t, c, rfl, rfl, -⟩ := exists_of_map_eq hrest
    exact ⟨a, s, b, t, c, rfl, (hcarries s fun x hx => by simp [hx]).mp hs,
      (hcarries t fun x hx => by simp [hx]).mp ht⟩
  · rintro ⟨a, s, b, t, c, rfl, hs, ht⟩
    let signal := fun x : ApplicationStreamAssembler.Arrival => streamSignal streamId x.frame
    exact ⟨a.map signal, s.map signal, b.map signal, t.map signal, c.map signal,
      by simp only [List.map_append, signal], (hcarries s fun x hx => by simp [hx]).mpr hs,
      (hcarries t fun x hx => by simp [hx]).mpr ht⟩

end ApplicationStreamSendOptions

/-- A small stream of two data frames, or of one. -/
def smallStream (maxChunkChars : ℕ) : ApplicationStreamSendOptions :=
  ⟨"app", "v1", none, .bool true, ∅, maxChunkChars⟩

/-- The text of the body. -/
def smallText : JsonValue → String
  | .bool true => "true"
  | _ => ""

/-- The value of the text. -/
def smallValue (text : String) : Option JsonValue :=
  if text = "true" then some (.bool true) else none

/-- Frames that arrive from a peer. -/
def smallArrivals (frames : List ApplicationStreamFrame) :
    List ApplicationStreamAssembler.Arrival :=
  frames.map fun frame =>
    ⟨⟨"route", "p", "room", .broadcast, 0, 0, .inMemory, none,
      ⟨"p", .inMemory, false, false, .unknown⟩, ⟨"app", "v1", none, .null, ∅⟩⟩, frame⟩

/-- The frames in the order they were sent give the body. -/
theorem one_event_iff_in_order :
    let options := smallStream 2
    let arrivals := smallArrivals (options.frames smallText "s")
    ∃ e, (ApplicationStreamAssembler.run smallValue {} arrivals).filter (·.streamId = "s") = [e] ∧
      options.Original "s" e := by
  intro options arrivals
  have hframes : ∀ a ∈ arrivals, a.frame ∈ options.frames smallText "s" := by
    intro a ha
    obtain ⟨frame, hframe, rfl⟩ := List.mem_map.mp ha
    exact hframe
  refine (ApplicationStreamSendOptions.one_event_iff
    (Std.ExtTreeMap.getElem?_eq_none Std.ExtTreeMap.not_mem_empty)
    fun a ha _ => hframes a ha).mpr ⟨rfl, ?_, ?_⟩
  · refine ⟨smallArrivals [options.openFrame smallText "s"],
      smallArrivals (options.dataFrames smallText "s"),
      smallArrivals [options.closeFrame smallText "s"], ?_, ?_, ?_⟩
    · simp only [arrivals, smallArrivals, ApplicationStreamSendOptions.frames, List.map_cons,
        List.map_append, List.map_nil, List.cons_append, List.nil_append]
    · have hkinds : ∀ frame ∈ options.dataFrames smallText "s",
          frame ≠ options.openFrame smallText "s" := by decide +kernel
      intro a ha
      obtain ⟨frame, hframe, rfl⟩ := List.mem_map.mp ha
      exact hkinds frame hframe
    · exact fun frame hframe => ⟨_, List.mem_map_of_mem hframe, rfl⟩
  · -- no frame arrives twice
    rintro ⟨a, s, b, t, c, heq, hs, ht⟩
    have hnodup : (arrivals.map (·.frame)).Nodup := by decide +kernel
    have hdata : options.frame "s" 1 .data (some "tr") false ∈
        options.dataFrames smallText "s" := by
      decide +kernel
    obtain ⟨x, hx, hxframe⟩ := hs.2 _ hdata
    obtain ⟨y, hy, hyframe⟩ := ht.2 _ hdata
    rw [heq, List.map_append] at hnodup
    refine (List.nodup_append.mp hnodup).2.2 x.frame ?_ y.frame ?_ (hxframe.trans hyframe.symm)
    · exact List.mem_map_of_mem (by simp [hx])
    · exact List.mem_map_of_mem (by simp [hy])

/-- An opening frame that comes late loses the parts before it, and a part that comes again is
taken for another stream. -/
theorem stream_lost_and_repeated :
    let two := smallStream 2
    let one := smallStream 4
    (two.frames smallText "s").length = 4 ∧
      ((two.dataFrames smallText "s").map (·.sequence)) = [1, 2] ∧
      ApplicationStreamAssembler.run smallValue {} (smallArrivals
        ((two.dataFrames smallText "s").take 1 ++ [two.openFrame smallText "s"] ++
          (two.dataFrames smallText "s").drop 1 ++ [two.closeFrame smallText "s"])) = [] ∧
      ((ApplicationStreamAssembler.run smallValue {} (smallArrivals
        (one.frames smallText "s" ++ one.dataFrames smallText "s"))).map (·.body)) =
          [.bool true, .bool true] := by
  decide +kernel

end Primadb
