import LedFirmware.CanDemux
import LedFirmware.FrameConstruct

/-!
# Sending a buffer as CAN messages

`canbus_middle_send` cuts a buffer into messages of eight bytes and a shorter last
one, and gives up at the first message that the driver cannot send.
-/

namespace LedFirmware

/-- `CanTxMsg` of the application, `CANBusTx_type` of the bootloader. -/
structure CanTx where
  stdId : Nat
  extId : Nat
  ide : Nat
  rtr : Nat
  dlc : Nat
  data : Nat → UInt8

def CanTx.payload (tx : CanTx) : List UInt8 := (List.range tx.dlc).map tx.data

/-- The record with its length and as many data bytes written, the others as they were. -/
def CanTx.load (tx : CanTx) (count : Nat) (source : Nat → UInt8) : CanTx :=
  { tx with
    dlc := count
    data := fun index => if index < count then source index else tx.data index }

/-- What `canbus_middle_send` does: calls of `stm32_CAN_send` with their answers, and waits. -/
inductive CanSendEvent
  | send (tx : CanTx) (sent : Bool)
  | delay (time : Nat)

/-- The bytes that have reached the bus. -/
def sentBytes (events : List CanSendEvent) : List UInt8 :=
  events.flatMap fun
    | .send tx true => tx.payload
    | .send _ false | .delay _ => []

/-- The answers to the calls of `stm32_CAN_send`, in turn. -/
def sendAnswers (events : List CanSendEvent) : List Bool :=
  events.filterMap fun
    | .send _ sent => some sent
    | .delay _ => none

/-- The events of a loop, the value returned from inside it, and the record it leaves. -/
structure SendLoop where
  events : List CanSendEvent
  returned : Option Nat
  tx : CanTx

/-- The loop over the whole segments from segment `i` on; `stm32_CAN_send` answers its
`k`-th call with `answers k`. -/
def sendSegments (pause : Nat) (buf : Nat → UInt8) (answers : Nat → Bool) :
    (left i : Nat) → CanTx → SendLoop
  | 0, _, tx => ⟨[], none, tx⟩
  | left + 1, i, tx =>
      let tx := tx.load 8 (bytesFrom buf (i * 8))
      if answers i then
        let waiting := if i % 10 = 0 then [.delay pause] else []
        let rest := sendSegments pause buf answers left (i + 1) tx
        { rest with events := .send tx true :: (waiting ++ rest.events) }
      else ⟨[.send tx false], some (i * 8), tx⟩

/-- Both firmwares send in this way, up to how long they wait.  The record `tx` is not
initialised. -/
def middleSend (pause : Nat) (tx : CanTx) (stdID : Nat) (buf : Nat → UInt8) (len : Nat)
    (answers : Nat → Bool) : List CanSendEvent × Nat :=
  if len = 0 then ([], 0)
  else
    let num := len / 8
    let lenLeft := len % 8
    let tx := { tx with stdId := stdID, ide := canIdStandard, rtr := canRtrData }
    let loop := sendSegments pause buf answers num 0 tx
    match loop.returned with
    | some count => (loop.events, count)
    | none =>
        if lenLeft = 0 then (loop.events, len)
        else
          let tx := loop.tx.load lenLeft (bytesFrom buf (num * 8))
          let sent := answers num
          (loop.events ++ [.send tx sent], if sent then len else num * 8)

/-- `canbus_middle_send`: the application waits for a tick, the bootloader for 10 ms. -/
def CanFirmware.canbusMiddleSend : CanFirmware → CanTx → (stdID : Nat) → (buf : Nat → UInt8) →
    (len : Nat) → (answers : Nat → Bool) → List CanSendEvent × Nat
  | .app => middleSend 1
  | .iap => middleSend 10

@[simp] theorem CanTx.load_dlc (tx : CanTx) (count : Nat) (source : Nat → UInt8) :
    (tx.load count source).dlc = count := rfl

/-- What a loaded record carries does not depend on what it held before. -/
@[simp] theorem CanTx.load_payload (tx : CanTx) (count : Nat) (source : Nat → UInt8) :
    (tx.load count source).payload = (List.range count).map source := by
  unfold payload
  apply List.map_congr_left
  intro index inside
  exact if_pos (List.mem_range.mp inside)

@[simp] theorem sentBytes_nil : sentBytes [] = [] := rfl

@[simp] theorem sentBytes_append (first second : List CanSendEvent) :
    sentBytes (first ++ second) = sentBytes first ++ sentBytes second :=
  List.flatMap_append

@[simp] theorem sentBytes_sent (tx : CanTx) (later : List CanSendEvent) :
    sentBytes (.send tx true :: later) = tx.payload ++ sentBytes later := rfl

@[simp] theorem sentBytes_failed (tx : CanTx) (later : List CanSendEvent) :
    sentBytes (.send tx false :: later) = sentBytes later := rfl

@[simp] theorem sentBytes_delay (time : Nat) (later : List CanSendEvent) :
    sentBytes (.delay time :: later) = sentBytes later := rfl

@[simp] theorem sendAnswers_nil : sendAnswers [] = [] := rfl

@[simp] theorem sendAnswers_append (first second : List CanSendEvent) :
    sendAnswers (first ++ second) = sendAnswers first ++ sendAnswers second :=
  List.filterMap_append

@[simp] theorem sendAnswers_send (tx : CanTx) (sent : Bool) (later : List CanSendEvent) :
    sendAnswers (.send tx sent :: later) = sent :: sendAnswers later := rfl

@[simp] theorem sendAnswers_delay (time : Nat) (later : List CanSendEvent) :
    sendAnswers (.delay time :: later) = sendAnswers later := rfl

/-- Two neighbouring windows of a buffer are one. -/
theorem range_map_append (buf : Nat → UInt8) (first second : Nat) :
    (List.range first).map buf ++ (List.range second).map (bytesFrom buf first) =
      (List.range (first + second)).map buf := by
  rw [List.range_add, List.map_append, List.map_map]
  rfl

section Segments

variable {pause : Nat} {buf : Nat → UInt8} {answers : Nat → Bool}

/-- The segments that were sent continue the bytes before them, up to what is returned or
up to the end of the loop. -/
theorem sendSegments_bytes (left i : Nat) (tx : CanTx) :
    (List.range (i * 8)).map buf ++
        sentBytes (sendSegments pause buf answers left i tx).events =
      (List.range ((sendSegments pause buf answers left i tx).returned.getD
        ((i + left) * 8))).map buf := by
  induction left generalizing i tx with
  | zero => simp [sendSegments]
  | succ left ih =>
      simp only [sendSegments]
      by_cases sent : answers i
      · have waiting : sentBytes (if i % 10 = 0 then [.delay pause] else []) = [] := by
          split <;> rfl
        have next : (i + 1) * 8 = i * 8 + 8 := Nat.succ_mul i 8
        have rest := ih (i + 1) (tx.load 8 (bytesFrom buf (i * 8)))
        rw [next, ← range_map_append, List.append_assoc] at rest
        rw [if_pos sent, sentBytes_sent, CanTx.load_payload, sentBytes_append, waiting,
          List.nil_append, show i + (left + 1) = i + 1 + left by omega]
        exact rest
      · rw [if_neg sent, sentBytes_failed, sentBytes_nil, List.append_nil]
        rfl

theorem sendSegments_dlc (left i : Nat) (tx : CanTx) {record : CanTx} {sent : Bool}
    (member : .send record sent ∈ (sendSegments pause buf answers left i tx).events) :
    record.dlc = 8 := by
  induction left generalizing i tx with
  | zero => exact absurd member List.not_mem_nil
  | succ left ih =>
      simp only [sendSegments] at member
      by_cases answer : answers i
      · rw [if_pos answer] at member
        simp only [List.mem_cons, List.mem_append] at member
        rcases member with first | waiting | later
        · injection first with same
          rw [same, CanTx.load_dlc]
        · split at waiting <;> simp at waiting
        · exact ih _ _ later
      · rw [if_neg answer, List.mem_singleton] at member
        injection member with same
        rw [same, CanTx.load_dlc]

/-- The calls of a loop that runs to its end have all succeeded; one that is left early has
failed at its last call. -/
theorem sendSegments_answers (left i : Nat) (tx : CanTx) :
    ∃ calls, sendAnswers (sendSegments pause buf answers left i tx).events =
        (List.range calls).map (fun call => answers (i + call)) ∧
      match (sendSegments pause buf answers left i tx).returned with
      | none => calls = left
      | some _ => ∃ call < calls, answers (i + call) = false := by
  induction left generalizing i tx with
  | zero => exact ⟨0, rfl, rfl⟩
  | succ left ih =>
      simp only [sendSegments]
      by_cases sent : answers i
      · have waiting : sendAnswers (if i % 10 = 0 then [.delay pause] else []) = [] := by
          split <;> rfl
        obtain ⟨calls, answered, ended⟩ := ih (i + 1) (tx.load 8 (bytesFrom buf (i * 8)))
        rw [if_pos sent]
        refine ⟨calls + 1, ?_, ?_⟩
        · rw [sendAnswers_send, sendAnswers_append, waiting, List.nil_append, answered,
            List.range_succ_eq_map, List.map_cons, List.map_map, Nat.add_zero i, sent]
          congr 1
          apply List.map_congr_left
          intro call _
          rw [Function.comp_apply, Nat.succ_eq_add_one, Nat.add_assoc, Nat.add_comm 1]
        · dsimp only
          cases returned : (sendSegments pause buf answers left (i + 1)
              (tx.load 8 (bytesFrom buf (i * 8)))).returned with
          | none =>
              rw [returned] at ended
              exact congrArg (· + 1) ended
          | some count =>
              rw [returned] at ended
              obtain ⟨call, inside, failed⟩ := ended
              refine ⟨call + 1, Nat.succ_lt_succ inside, ?_⟩
              rw [Nat.add_comm call, ← Nat.add_assoc]
              exact failed
      · rw [if_neg sent]
        refine ⟨1, ?_, 0, Nat.one_pos, Bool.eq_false_iff.mpr sent⟩
        simp [sent]

end Segments

/-- Messages that fit and carry the first bytes of a buffer, with the answers given to their
calls; fewer bytes than `len` only after a failure. -/
structure SendsFirst (buf : Nat → UInt8) (answers : Nat → Bool) (len : Nat)
    (events : List CanSendEvent) (count : Nat) : Prop where
  fits : ∀ record sent, .send record sent ∈ events → record.dlc ≤ 8
  answered : sendAnswers events = (List.range (sendAnswers events).length).map answers
  bytes : sentBytes events = (List.range count).map buf
  all : (∀ call < (sendAnswers events).length, answers call = true) → count = len

section Buffers

variable {pause : Nat} {buf : Nat → UInt8} {answers : Nat → Bool} {len : Nat}

/-- All segments of eight bytes, or those before a failure. -/
theorem sendsFirst_segments (num : Nat) (tx : CanTx) :
    SendsFirst buf answers (num * 8) (sendSegments pause buf answers num 0 tx).events
      ((sendSegments pause buf answers num 0 tx).returned.getD (num * 8)) := by
  have bytes := @sendSegments_bytes pause buf answers num 0 tx
  rw [Nat.zero_mul, List.range_zero, List.map_nil, List.nil_append, Nat.zero_add] at bytes
  obtain ⟨calls, answered, ended⟩ := @sendSegments_answers pause buf answers num 0 tx
  simp only [Nat.zero_add] at answered ended
  have length := congrArg List.length answered
  rw [List.length_map, List.length_range] at length
  refine ⟨fun _ _ member => (sendSegments_dlc num 0 tx member).le, ?_, bytes, ?_⟩
  · rw [length]
    exact answered
  · intro noFailure
    cases returned : (sendSegments pause buf answers num 0 tx).returned with
    | none => rfl
    | some count =>
        rw [returned] at ended
        obtain ⟨call, inside, failed⟩ := ended
        rw [length] at noFailure
        exact absurd (noFailure call inside) (Bool.eq_false_iff.mp failed)

/-- One more message with the bytes behind the segments. -/
theorem SendsFirst.append_last {events : List CanSendEvent} {count more : Nat} {tx : CanTx}
    (segments : SendsFirst buf answers count events count) (short : more ≤ 8)
    (whole : count + more = len) :
    SendsFirst buf answers len (events ++ [.send (tx.load more (bytesFrom buf count))
        (answers (sendAnswers events).length)])
      (if answers (sendAnswers events).length then len else count) := by
  have length {record : CanTx} {sent : Bool} :
      (sendAnswers (events ++ [.send record sent])).length = (sendAnswers events).length + 1 := by
    simp
  refine ⟨?_, ?_, ?_, ?_⟩
  · intro record answer member
    rw [List.mem_append, List.mem_singleton] at member
    rcases member with earlier | last
    · exact segments.fits record answer earlier
    · injection last with same
      rw [same, CanTx.load_dlc]
      exact short
  · rw [length, List.range_succ, List.map_append, ← segments.answered]
    simp
  · rw [sentBytes_append, segments.bytes]
    cases answers (sendAnswers events).length with
    | true => simp [range_map_append, whole]
    | false => simp
  · intro noFailure
    rw [length] at noFailure
    rw [if_pos (noFailure _ (Nat.lt_succ_self _))]

theorem sendsFirst_middleSend (tx : CanTx) (stdID : Nat) :
    SendsFirst buf answers len (middleSend pause tx stdID buf len answers).1
      (middleSend pause tx stdID buf len answers).2 := by
  unfold middleSend
  by_cases none : len = 0
  · rw [if_pos none]
    exact ⟨fun _ _ member => absurd member List.not_mem_nil, rfl, rfl, fun _ => none.symm⟩
  · have split := Nat.div_add_mod' len 8
    rw [if_neg none]
    dsimp only
    generalize { tx with stdId := stdID, ide := canIdStandard, rtr := canRtrData } = start
    have segments := @sendsFirst_segments pause buf answers (len / 8) start
    obtain ⟨calls, answered, ended⟩ := @sendSegments_answers pause buf answers (len / 8) 0 start
    have length := congrArg List.length answered
    rw [List.length_map, List.length_range] at length
    generalize sendSegments pause buf answers (len / 8) 0 start = loop at segments ended length ⊢
    cases returned : loop.returned with
    | some count =>
        rw [returned] at ended
        rw [returned, Option.getD_some] at segments
        obtain ⟨call, inside, failed⟩ := ended
        rw [Nat.zero_add] at failed
        refine ⟨segments.fits, segments.answered, segments.bytes, fun noFailure => ?_⟩
        rw [length] at noFailure
        exact absurd (noFailure call inside) (Bool.eq_false_iff.mp failed)
    | none =>
        rw [returned] at ended
        rw [returned, Option.getD_none] at segments
        dsimp only at ended ⊢
        by_cases exact : len % 8 = 0
        · rw [if_pos exact]
          rw [show len / 8 * 8 = len by omega] at segments
          exact segments
        · have last := @SendsFirst.append_last buf answers len loop.events (len / 8 * 8) (len % 8)
            loop.tx segments (Nat.mod_lt len (by decide)).le split
          rw [length.trans ended] at last
          rw [if_neg exact]
          exact last

end Buffers

/-- Every message fits, the calls are answered in turn, those that were sent carry the first
bytes of the buffer, as many as are returned, and these are all of them unless a call failed. -/
theorem can_segmentation (firmware : CanFirmware) (tx : CanTx) (stdID : Nat)
    (buf : Nat → UInt8) (len : Nat) (answers : Nat → Bool) :
    let result := firmware.canbusMiddleSend tx stdID buf len answers
    (∀ record sent, .send record sent ∈ result.1 → record.dlc ≤ 8) ∧
      sendAnswers result.1 = (List.range (sendAnswers result.1).length).map answers ∧
      sentBytes result.1 = (List.range result.2).map buf ∧
      ((∀ call < (sendAnswers result.1).length, answers call = true) → result.2 = len) := by
  have sends (pause : Nat) := @sendsFirst_middleSend pause buf answers len tx stdID
  cases firmware with
  | app => exact ⟨(sends 1).fits, (sends 1).answered, (sends 1).bytes, (sends 1).all⟩
  | iap => exact ⟨(sends 10).fits, (sends 10).answered, (sends 10).bytes, (sends 10).all⟩

end LedFirmware
