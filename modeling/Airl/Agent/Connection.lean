import Airl.Agent.RoundTrip
import Mathlib.Data.List.Forall2

/-! # Conversations with an agent

`handle_connection` answers the frames of a stream one after another, until what comes
is no frame or an answer cannot be sent. A frame that is no task is answered, too, under
the id `unknown`.
-/

namespace Airl.Agent

open Utf8

variable {payload : List Char} {payloads : List (List Char)} {bytes rest : List UInt8}

theorem toBeBytes_fromBeBytes {buf : List UInt8} (h : buf.length = 4) :
    toBeBytes (fromBeBytes buf) = buf := by
  match buf, h with
  | [a, b, c, d], _ =>
    have ha := a.toNat_lt
    have hb := b.toNat_lt
    have hc := c.toNat_lt
    have hd := d.toNat_lt
    simp only [toBeBytes, fromBeBytes, List.cons.injEq, and_true, ← UInt8.toNat_inj,
      UInt8.toNat_ofNat']
    omega

theorem readFrame_eq_ok_iff : readFrame bytes = .ok (payload, rest) ↔
    bytes = writeFrame payload ++ rest ∧ (encode payload).length ≤ maxFrameSize := by
  constructor
  · intro h
    unfold readFrame readExact at h
    by_cases hlen : 4 ≤ bytes.length
    · rw [if_pos hlen] at h
      obtain ⟨hle, hlength, hrest⟩ := length_of_readPayload h
      have hsmall : fromBeBytes (bytes.take 4) < 4294967296 := Nat.lt_of_le_of_lt hle (by decide)
      refine ⟨?_, hlength ▸ hle⟩
      rw [writeFrame, hlength, Nat.mod_eq_of_lt hsmall, List.append_assoc, ← hrest,
        toBeBytes_fromBeBytes (List.length_take_of_le hlen), List.take_append_drop]
    · rw [if_neg hlen] at h
      cases h
  · rintro ⟨rfl, hle⟩
    exact readFrame_writeFrame_iff.mpr ⟨hle, rfl⟩

theorem length_of_readFrame (h : readFrame bytes = .ok (payload, rest)) :
    rest.length < bytes.length := by
  rw [(readFrame_eq_ok_iff.mp h).1]
  simp [writeFrame, toBeBytes]
  omega

/-- The reader stops here: the stream has ended or what comes is no frame. -/
def Stops (bytes : List UInt8) : Prop := ∃ e, readFrame bytes = .error e

theorem exists_frames (bytes : List UInt8) : ∃ (payloads : List (List Char)) (rest : List UInt8),
    bytes = payloads.flatMap writeFrame ++ rest ∧ Stops rest ∧
      ∀ payload ∈ payloads, (encode payload).length ≤ maxFrameSize := by
  -- a frame is never empty, so what is behind it is shorter
  induction hn : bytes.length using Nat.strong_induction_on generalizing bytes with
  | h n ih =>
    subst hn
    cases hread : readFrame bytes with
    | error e => exact ⟨[], bytes, rfl, ⟨e, hread⟩, nofun⟩
    | ok p =>
      obtain ⟨payload, others⟩ := p
      obtain ⟨payloads, rest, rfl, hstops, hfits⟩ := ih _ (length_of_readFrame hread) others rfl
      obtain ⟨hbytes, hfit⟩ := readFrame_eq_ok_iff.mp hread
      refine ⟨payload :: payloads, rest, ?_, hstops, List.forall_mem_cons.mpr ⟨hfit, hfits⟩⟩
      rw [hbytes, List.flatMap_cons, List.append_assoc]

section Connection

variable {World : Type} (F : FloatFormat)
  (callByName : List Char → List Datum → World → Except (List Char) Datum × World)

/-- The call that a task asks for. -/
def answer (task : TaskMessage) (world : World) : ResultMessage × World :=
  match callByName task.call task.args world with
  | (.ok value, world) => (⟨task.id, true, some value, none⟩, world)
  | (.error e, world) => (⟨task.id, false, none, some e⟩, world)

/-- What is answered to a frame. -/
def respond (frame : List Char) (world : World) : ResultMessage × World :=
  match parseTask F.parse frame with
  | .ok task => answer callByName task world
  | .error e => (⟨"unknown".toList, false, none, some ("protocol error: " ++ e).toList⟩, world)

/-- `handle_connection` on a stream, of whose answers `sends` can be sent. A task is run
before its answer turns out not to be wanted any more. -/
def handleConnection (bytes : List UInt8) (sends : Nat) (world : World) : List UInt8 × World :=
  match _h : readFrame bytes with
  | .error _ => ([], world)
  | .ok (frame, rest) =>
    match respond F callByName frame world, sends with
    | (_, world), 0 => ([], world)
    | (result, world), sends + 1 =>
      let (out, world) := handleConnection rest sends world
      (writeFrame (serializeResult F result) ++ out, world)
termination_by bytes.length
decreasing_by exact length_of_readFrame _h

/-- One after another, with the state that the ones before have left. -/
def inTurn {α β : Type} (step : α → World → β × World) : List α → World → List β × World
  | [], world => ([], world)
  | a :: as, world =>
    let (b, world) := step a world
    let (bs, world) := inTurn step as world
    (b :: bs, world)

def sent (results : List ResultMessage) : List UInt8 :=
  results.flatMap fun result => writeFrame (serializeResult F result)

variable {F callByName}

theorem handleConnection_stops (h : Stops bytes) (sends : Nat) (world : World) :
    handleConnection F callByName bytes sends world = ([], world) := by
  obtain ⟨e, he⟩ := h
  rw [handleConnection]
  split
  · rfl
  · next hread => rw [he] at hread; cases hread

theorem handleConnection_cons (hfit : (encode payload).length ≤ maxFrameSize) (sends : Nat)
    (world : World) : handleConnection F callByName (writeFrame payload ++ rest) sends world =
      match respond F callByName payload world, sends with
      | (_, world), 0 => ([], world)
      | (result, world), sends + 1 =>
        let (out, world) := handleConnection F callByName rest sends world
        (writeFrame (serializeResult F result) ++ out, world) := by
  have hframe : readFrame (writeFrame payload ++ rest) = .ok (payload, rest) :=
    readFrame_eq_ok_iff.mpr ⟨rfl, hfit⟩
  rw [handleConnection]
  split
  · next hread => rw [hframe] at hread; cases hread
  · next hread => rw [hframe] at hread; cases hread; rfl

theorem handleConnection_frames (hstops : Stops rest) (sends : Nat) (world : World)
    (hfits : ∀ payload ∈ payloads, (encode payload).length ≤ maxFrameSize) :
    handleConnection F callByName (payloads.flatMap writeFrame ++ rest) sends world =
      (sent F ((inTurn (respond F callByName) (payloads.take (sends + 1)) world).1.take sends),
        (inTurn (respond F callByName) (payloads.take (sends + 1)) world).2) := by
  induction payloads generalizing sends world with
  | nil => simp [handleConnection_stops hstops, inTurn, sent]
  | cons payload payloads ih =>
    rw [List.forall_mem_cons] at hfits
    rw [List.flatMap_cons, List.append_assoc, handleConnection_cons hfits.1]
    cases sends with
    | zero => simp [inTurn, sent]
    | succ sends =>
      dsimp only
      rw [ih sends _ hfits.2]
      simp [inTurn, sent]

/-- Every stream is answered frame by frame: each frame before the first thing that is no
frame is answered once, in order, up to the answer that cannot be sent, and nothing behind. -/
theorem handleConnection_exact (bytes : List UInt8) (sends : Nat) (world : World) :
    ∃ (payloads : List (List Char)) (rest : List UInt8),
      bytes = payloads.flatMap writeFrame ++ rest ∧ Stops rest ∧
      (∀ payload ∈ payloads, (encode payload).length ≤ maxFrameSize) ∧
      handleConnection F callByName bytes sends world =
        (sent F ((inTurn (respond F callByName) (payloads.take (sends + 1)) world).1.take sends),
          (inTurn (respond F callByName) (payloads.take (sends + 1)) world).2) := by
  obtain ⟨payloads, rest, rfl, hstops, hfits⟩ := exists_frames bytes
  exact ⟨payloads, rest, rfl, hstops, hfits, handleConnection_frames hstops sends world hfits⟩

theorem inTurn_congr {α β γ : Type} {f : α → World → β × World} {g : γ → World → β × World}
    {code : α → γ} {as : List α} (h : ∀ a ∈ as, ∀ world, g (code a) world = f a world)
    (world : World) : inTurn g (as.map code) world = inTurn f as world := by
  induction as generalizing world with
  | nil => rfl
  | cons a as ih =>
    rw [List.forall_mem_cons] at h
    simp only [List.map_cons, inTurn, h.1, ih h.2]

theorem inTurn_length {α β : Type} {step : α → World → β × World} (as : List α) (world : World) :
    (inTurn step as world).1.length = as.length := by
  induction as generalizing world with
  | nil => rfl
  | cons a as ih => simp [inTurn, ih]

theorem answer_id (task : TaskMessage) (world : World) :
    (answer callByName task world).1.id = task.id := by
  unfold answer
  split <;> rfl

theorem ids_inTurn (tasks : List TaskMessage) (world : World) :
    (inTurn (answer callByName) tasks world).1.map ResultMessage.id =
      tasks.map TaskMessage.id := by
  induction tasks generalizing world with
  | nil => rfl
  | cons task tasks ih => simp [inTurn, ih, answer_id]

/-- A client that sends clean tasks gets one frame for each, in the order of the tasks and
under their ids, and reads the result in it exactly if that is clean. -/
theorem exchange_exact (hF : F.Lawful) {tasks : List TaskMessage} (world : World)
    (hclean : ∀ task ∈ tasks, task.Clean)
    (htasks : ∀ task ∈ tasks, (encode (serializeTask F task)).length ≤ maxFrameSize)
    (hresults : ∀ result ∈ (inTurn (answer callByName) tasks world).1,
      (encode (serializeResult F result)).length ≤ maxFrameSize) :
    ∃ payloads, readFrames tasks.length (handleConnection F callByName
        ((tasks.map (serializeTask F)).flatMap writeFrame) tasks.length world).1 =
          .ok (payloads, []) ∧
      List.Forall₂ (fun payload result => parseResult F.parse payload = .ok result ↔ result.Clean)
        payloads (inTurn (answer callByName) tasks world).1 ∧
      (inTurn (answer callByName) tasks world).1.map ResultMessage.id =
        tasks.map TaskMessage.id := by
  have hrespond : ∀ task ∈ tasks, ∀ world,
      respond F callByName (serializeTask F task) world = answer callByName task world := by
    intro task htask world
    rw [respond, (parseTask_serializeTask_iff hF task).mpr (hclean task htask)]
  have hconnection := @handleConnection_frames (tasks.map (serializeTask F)) [] World F callByName
    ⟨.unexpectedEof, rfl⟩ tasks.length world (List.forall_mem_map.mpr htasks)
  have htake : (tasks.map (serializeTask F)).take (tasks.length + 1) =
      tasks.map (serializeTask F) := List.take_of_length_le (by simp)
  rw [List.append_nil, htake, inTurn_congr hrespond,
    List.take_of_length_le (Nat.le_of_eq (inTurn_length tasks world))] at hconnection
  refine ⟨(inTurn (answer callByName) tasks world).1.map (serializeResult F), ?_, ?_,
    ids_inTurn tasks world⟩
  · have hread := (@readFrames_writeFrames_iff
      ((inTurn (answer callByName) tasks world).1.map (serializeResult F))).mpr
        (List.forall_mem_map.mpr hresults)
    rw [List.length_map, inTurn_length, List.flatMap_map] at hread
    rw [hconnection]
    exact hread
  · rw [List.forall₂_map_left_iff]
    exact List.forall₂_same.mpr fun result _ => parseResult_serializeResult_iff hF result

/-- A call that answers how many there were before it. -/
def counter (_ : List Char) (_ : List Datum) (n : Nat) : Except (List Char) Datum × Nat :=
  (.ok (.int (Int64.ofNat n)), n + 1)

def counted : List TaskMessage :=
  [⟨['1'], ['a'], ['f'], [.int 3, .str ['x']]⟩, ⟨['2'], ['a'], ['g'], [.list [.bool true]]⟩]

theorem counted_clean : ∀ task ∈ counted, task.Clean := by
  have hshort : Syntax.IsShort ['x'] := by decide
  intro task htask
  rcases List.mem_cons.mp htask with rfl | htask
  · exact ⟨by decide, by decide, by decide, by simp [Datum.CleanArg, Datum.Clean,
      hshort], by decide,
      by decide⟩
  · cases List.mem_singleton.mp htask
    exact ⟨by decide, by decide, by decide,
      by simp [Datum.CleanArg, Datum.Clean, Datum.CleanItems], by decide, by decide⟩

/-- Two tasks whose calls are counted. -/
theorem exchange_counter : ∃ first second,
    readFrames 2 (handleConnection numberedFloats counter
      ((counted.map (serializeTask numberedFloats)).flatMap writeFrame) 2 41).1 =
        .ok ([first, second], []) ∧
    parseResult numberedFloats.parse first = .ok ⟨['1'], true, some (.int 41), none⟩ ∧
    parseResult numberedFloats.parse second = .ok ⟨['2'], true, some (.int 42), none⟩ := by
  have hresults : ∀ result ∈ (inTurn (answer counter) counted 41).1,
      (Utf8.encode (serializeResult numberedFloats result)).length ≤ maxFrameSize := by decide
  have hclean : ∀ {id : List Char} {n : Int64}, Syntax.IsShort id →
      ResultMessage.Clean ⟨id, true, some (.int n), none⟩ := by
    intro id n hid
    exact ⟨hid, fun _ => ⟨rfl, .int n, rfl, trivial, (by decide : 0 < Syntax.maxParseDepth),
      (by decide : 8 < Syntax.Lexer.maxTokenCount)⟩, by simp⟩
  obtain ⟨payloads, hread, hparse, -⟩ :=
    exchange_exact numberedFloats_lawful 41 counted_clean (by decide) hresults
  have hinTurn : (inTurn (answer counter) counted 41).1 =
      [⟨['1'], true, some (.int 41), none⟩, ⟨['2'], true, some (.int 42), none⟩] := rfl
  rw [hinTurn] at hparse
  cases hparse with
  | cons hfirst hrest =>
    cases hrest with
    | cons hsecond hrest =>
      cases hrest
      exact ⟨_, _, hread, hfirst.mpr (hclean (by decide)), hsecond.mpr (hclean (by decide))⟩

end Connection

end Airl.Agent
