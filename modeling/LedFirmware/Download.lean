import LedFirmware.UpdateFrames

/-!
# The download of an image

A handler is called with update frames only.  Each piece of the image comes at
least once, in any order and with any repetitions; an erased copy area then holds
the image and erased bytes behind it.
-/

namespace LedFirmware

open CrashProgram NorFlash

/-- A call of a handler, with what its stack holds. -/
structure Delivery where
  buf : Nat → UInt8
  len : Nat
  fuel : Nat
  stack : Nat → UInt8

/-- An update frame with piece `k` of the image. -/
structure IsPiece (bus : IapPort) (image : Nat → UInt8) (size subSize k : Nat)
    (frame : Nat → UInt8) (dataLen : Nat) : Prop where
  code : frame 3 = bus.updateCode
  inside : k * subSize < size
  frameNum : field frame bus.frameNumOffset 2 = k
  length : dataLen = bus.overhead + pieceSize size subSize k
  data : ∀ index < pieceSize size subSize k,
    frame (bus.dataOffset + index) = image (k * subSize + index)

namespace Protocol

/-- The call is accepted with an update frame that carries piece `k`, addressed to
the device. -/
def Carries (protocol : Protocol) (id : UInt16) (image : Nat → UInt8) (size subSize k : Nat)
    (call : Delivery) : Prop :=
  ∃ i dataLen, protocol.Accepts call.fuel call.buf call.len i dataLen ∧
    protocol.bus.Addressed id (bytesFrom call.buf i) ∧
    IsPiece protocol.bus image size subSize k (bytesFrom call.buf i) dataLen

/-- One call of a handler after another. -/
def anyliseAll (chip : Chip) (protocol : Protocol) :
    List Delivery → protocol.Ram → FlashProg chip.geometry protocol.Ram
  | [], ram => .done ram
  | call :: later, ram =>
      protocol.anylise chip call.fuel ram call.stack call.buf call.len >>= fun handled =>
      anyliseAll chip protocol later handled.1

end Protocol

/-- The copy area holds the pieces in `written` and is erased elsewhere. -/
def Downloaded (chip : Chip) (image : Nat → UInt8) (size subSize : Nat) (written : Set Nat)
    (mem : Mem) : Prop :=
  Assembled chip.addrAppCopy otaBinMaxSize image size subSize written mem

variable {chip : Chip} {protocol : Protocol} {image : Nat → UInt8} {size subSize k : Nat}
  {written : Set Nat} {mem : Mem} {ram : protocol.Ram} {call : Delivery}

/-- An accepted call carries one piece only. -/
theorem Protocol.Carries.frameNum_unique {id : UInt16} {piece i dataLen : Nat}
    (carries : protocol.Carries id image size subSize piece call)
    (accepts : protocol.Accepts call.fuel call.buf call.len i dataLen)
    (isPiece : IsPiece protocol.bus image size subSize k (bytesFrom call.buf i) dataLen) :
    piece = k := by
  obtain ⟨other, otherLen, otherAccepts, -, otherPiece⟩ := carries
  cases otherAccepts.2.symm.trans accepts.2
  exact otherPiece.frameNum.symm.trans isPiece.frameNum

/-- A piece of the announced length is written to its place, for the first time or
again. -/
theorem ends_piece {frame : Nat → UInt8} {dataLen : Nat} (locked : Bool)
    (downloaded : Downloaded chip image size subSize written mem) (fits : size ≤ otaBinMaxSize)
    (positive : 0 < subSize) (units : subSize % protocol.unit = 0)
    (announced : protocol.subSize ram = subSize)
    (isPiece : IsPiece protocol.bus image size subSize k frame dataLen) :
    ∃ after, Ends (protocol.updateWrite ram frame chip dataLen) mem locked true after true ∧
      Downloaded chip image size subSize (insert k written) after := by
  obtain ⟨-, inside, num, length, data⟩ := isPiece
  have some' : 0 < pieceSize size subSize k := by
    rw [pieceSize]
    omega
  have whole := piece_end inside
  have registers : otaBinMaxSize + 12 < 2 ^ 32 := by decide
  have overhead : 10 ≤ protocol.bus.overhead ∧ protocol.bus.overhead ≤ 12 := by
    cases protocol <;> decide
  have start : protocol.start ram frame = k * subSize := by
    rw [Protocol.start, num, announced]
  have payload : sub32 dataLen protocol.bus.overhead = pieceSize size subSize k := by
    rw [sub32_le (by omega) (by omega), length, Nat.add_sub_cancel_left]
  have room : otaBinMaxSize % (2 * protocol.halves) = 0 := by cases protocol <;> decide
  have aligned : chip.addrAppCopy % (2 * protocol.halves) = 0 := by
    have copy := @Protocol.copy_aligned chip protocol 0
    rwa [Nat.add_zero, Nat.zero_mod] at copy
  have covers := @covers_copy chip 0 otaBinMaxSize (by rw [Nat.zero_add])
  rw [Nat.add_zero] at covers
  obtain ⟨after, settles, assembled, -⟩ := @Assembled.settles_write _ _ _ _ k _ _ _ chip.geometry
    protocol.halves (protocol.piece frame) downloaded protocol.halves_pos positive units room
    aligned fits covers inside data locked
  refine ⟨after, ?_, assembled⟩
  rw [Protocol.updateWrite, if_pos ⟨by omega, by omega⟩, start, payload]
  exact settles.ends_bind fun _ => .done true

/-- The calls that follow add their pieces, whatever is stored already. -/
theorem ends_anyliseAll {calls : List Delivery} (fits : size ≤ otaBinMaxSize)
    (positive : 0 < subSize) (units : subSize % protocol.unit = 0)
    (downloaded : Downloaded chip image size subSize written mem) (locked : Bool)
    (announced : protocol.subSize ram = subSize)
    (pieces : ∀ call ∈ calls, ∃ k,
      protocol.Carries (protocol.ownID ram) image size subSize k call) :
    ∃ ramAfter after closed,
      Ends (protocol.anyliseAll chip calls ram) mem locked ramAfter after closed ∧
      Downloaded chip image size subSize
        (written ∪ {k | ∃ call ∈ calls,
          protocol.Carries (protocol.ownID ram) image size subSize k call}) after := by
  induction calls generalizing written mem locked ram with
  | nil =>
      refine ⟨ram, mem, locked, .done ram, ?_⟩
      have none : {k | ∃ call ∈ ([] : List Delivery),
          protocol.Carries (protocol.ownID ram) image size subSize k call} = ∅ := by
        ext k
        simp
      rwa [none, Set.union_empty]
  | cons call later ih =>
      obtain ⟨k, i, dataLen, accepts, addressed, isPiece⟩ := pieces call List.mem_cons_self
      obtain ⟨next, sent, equation, -, sameID, sameSub⟩ :=
        @anylise_update chip protocol call.fuel ram call.stack call.buf call.len i dataLen accepts
          addressed isPiece.code
      obtain ⟨middle, ends, stored⟩ := ends_piece locked downloaded fits positive units announced
        isPiece
      have rest := @ih (insert k written) middle next stored true (sameSub.trans announced)
      rw [sameID] at rest
      obtain ⟨ramAfter, after, closed, finish, complete⟩ := rest fun other member =>
        pieces other (List.mem_cons_of_mem _ member)
      refine ⟨ramAfter, after, closed, ?_, ?_⟩
      · rw [Protocol.anyliseAll, equation, Prog.bind_bind]
        exact ends.bind finish
      · have same : insert k written ∪ {k | ∃ call ∈ later,
            protocol.Carries (protocol.ownID ram) image size subSize k call} =
            written ∪ {k | ∃ other ∈ call :: later,
              protocol.Carries (protocol.ownID ram) image size subSize k other} := by
          ext piece
          simp only [Set.mem_union, Set.mem_insert_iff, Set.mem_ofPred_eq, List.mem_cons,
            exists_eq_or_imp]
          constructor
          · rintro ((rfl | old) | new)
            · exact Or.inr (Or.inl ⟨i, dataLen, accepts, addressed, isPiece⟩)
            · exact Or.inl old
            · exact Or.inr (Or.inr new)
          · rintro (old | carries | new)
            · exact Or.inl (Or.inr old)
            · exact Or.inl (Or.inl (carries.frameNum_unique accepts isPiece))
            · exact Or.inr new
        rwa [same] at complete

/-- Whatever the order and the repetitions of the update frames, if each piece of the
image occurs, the erased copy area ends up with the image and erased bytes. -/
theorem download_correct (chip : Chip) (protocol : Protocol) (image : Nat → UInt8)
    (size subSize : Nat) (fits : size ≤ otaBinMaxSize) (positive : 0 < subSize)
    (units : subSize % protocol.unit = 0) (ram : protocol.Ram)
    (announced : protocol.subSize ram = subSize) (state : State)
    (blank : ∀ index < otaBinMaxSize, state.mem (chip.addrAppCopy + index) = erasedByte)
    (calls : List Delivery)
    (pieces : ∀ call ∈ calls, ∃ k,
      protocol.Carries (protocol.ownID ram) image size subSize k call)
    (covered : ∀ k, k * subSize < size → ∃ call ∈ calls,
      protocol.Carries (protocol.ownID ram) image size subSize k call) :
    ∃ (after : Mem) (ramAfter : protocol.Ram) (closed : Bool),
      (∀ index < otaBinMaxSize, after (chip.addrAppCopy + index) =
        if index < size then image index else erasedByte) ∧
      ∀ schedule : FlashSchedule, Schedule.Within (D := flash chip.geometry) Reliable schedule →
        Schedule.Powered (D := flash chip.geometry) schedule → ∃ log rest,
        Prog.run (protocol.anyliseAll chip calls ram) schedule state =
          .done ramAfter (⟨after, closed, log⟩ : State) rest := by
  obtain ⟨mem, locked, log⟩ := state
  obtain ⟨ramAfter, after, closed, ends, downloaded⟩ := @ends_anyliseAll chip protocol image size
    subSize ∅ mem ram calls fits positive units (.empty blank) locked announced pieces
  refine ⟨after, ramAfter, closed, fun index inside => ?_, fun schedule within powered => ?_⟩
  · exact downloaded.complete (fun k starts => Or.inr (covered k starts)) inside
  · obtain ⟨newLog, used, run⟩ := ends.run log within powered
    exact ⟨newLog, _, run⟩

/-- The variables after a start frame with pieces of eight bytes. -/
def announcedRam : App.Ram :=
  { App.sampleRam with can := { OtaProgress.initial with subSize := 8 } }

def firstDelivery : Delivery := ⟨bufferOf (samplePiece 0), 20, 1, fun _ => 0⟩

def secondDelivery : Delivery := ⟨bufferOf (samplePiece 1), 20, 1, fun _ => 0⟩

theorem firstDelivery_carries : Protocol.appCan500.Carries
    (Protocol.appCan500.ownID announcedRam) (bufferOf sampleImage) 16 8 0 firstDelivery := by
  refine ⟨0, 20, ⟨by decide, by decide +kernel⟩, Or.inr rfl, ?_⟩
  exact ⟨by decide, by decide, by decide, by decide, by decide⟩

theorem secondDelivery_carries : Protocol.appCan500.Carries
    (Protocol.appCan500.ownID announcedRam) (bufferOf sampleImage) 16 8 1 secondDelivery := by
  refine ⟨0, 20, ⟨by decide, by decide +kernel⟩, Or.inr rfl, ?_⟩
  exact ⟨by decide, by decide, by decide, by decide, by decide⟩

/-- The second piece comes first, and once more at the end. -/
theorem download_correct_sample :
    ∃ (after : Mem) (ramAfter : Protocol.appCan500.Ram) (closed : Bool),
      (∀ index < otaBinMaxSize, after (sampleChip.addrAppCopy + index) =
        if index < 16 then bufferOf sampleImage index else erasedByte) ∧
      ∀ schedule : FlashSchedule,
        Schedule.Within (D := flash sampleChip.geometry) Reliable schedule →
        Schedule.Powered (D := flash sampleChip.geometry) schedule → ∃ log rest,
        Prog.run (Protocol.appCan500.anyliseAll sampleChip
            [secondDelivery, firstDelivery, secondDelivery] announcedRam) schedule
            ⟨erasedFlash, true, []⟩ =
          .done ramAfter (⟨after, closed, log⟩ : State) rest := by
  apply download_correct sampleChip .appCan500 (bufferOf sampleImage) 16 8 (by decide) (by decide)
    (by decide) announcedRam rfl ⟨erasedFlash, true, []⟩ (fun _ _ => rfl)
    [secondDelivery, firstDelivery, secondDelivery]
  · intro call member
    simp only [List.mem_cons, List.not_mem_nil, or_false] at member
    rcases member with rfl | rfl | rfl
    · exact ⟨1, secondDelivery_carries⟩
    · exact ⟨0, firstDelivery_carries⟩
    · exact ⟨1, secondDelivery_carries⟩
  · intro k inside
    obtain rfl | rfl : k = 0 ∨ k = 1 := by omega
    · exact ⟨firstDelivery, by simp, firstDelivery_carries⟩
    · exact ⟨secondDelivery, by simp, secondDelivery_carries⟩

end LedFirmware
