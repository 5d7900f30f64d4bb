import LedFirmware.CommDev
import Mathlib.Order.Bounds.Basic

/-!
# One round of the analysis

Up to three handlers answer on the same pending bytes.  What a round deletes is
stated on their answers alone: the length of the one that accepts, else the least
length of those that all reject, else nothing until the wait has been too long.
-/

namespace LedFirmware.App

open BoundedFifo CrashProgram NorFlash

/-- The places of `protocol_anylise_fun`. -/
def protocolFunMax : Nat := 3

variable {chip : Chip}

/-- The answers of the places in turn, up to the first handler that accepts, and whether
that one resets the processor.  Each handler is run from what the one before it has left, an
empty place rejects all. -/
inductive Answered (buf : Nat → UInt8) (len : Nat) : List (Option (AnyliseHandle chip)) → Ram →
    FlashSchedule → State → List DelInfo → (resets : Bool) → Prop
  | nil {ram : Ram} {schedule : FlashSchedule} {state : State} :
      Answered buf len [] ram schedule state [] false
  | empty {later : List (Option (AnyliseHandle chip))} {ram : Ram} {schedule : FlashSchedule}
      {state : State} {infos : List DelInfo} {resets : Bool} :
      Answered buf len later ram schedule state infos resets →
      Answered buf len (none :: later) ram schedule state (⟨.reject, len⟩ :: infos) resets
  | accepts {handle : AnyliseHandle chip} {later : List (Option (AnyliseHandle chip))} {ram : Ram}
      {schedule rest : FlashSchedule} {state after : State} {handled : Handled} :
      Prog.run (handle ram buf len) schedule state = .done handled after rest →
      handled.info.state = .accept →
      Answered buf len (some handle :: later) ram schedule state [handled.info] handled.reset
  | other {handle : AnyliseHandle chip} {later : List (Option (AnyliseHandle chip))} {ram : Ram}
      {schedule rest : FlashSchedule} {state after : State} {handled : Handled}
      {infos : List DelInfo} {resets : Bool} :
      Prog.run (handle ram buf len) schedule state = .done handled after rest →
      handled.info.state ≠ .accept → Answered buf len later handled.ram rest after infos resets →
      Answered buf len (some handle :: later) ram schedule state (handled.info :: infos) resets

/-- The wait for the rest of a frame has taken too long. -/
def CommDev.TimedOut (comm : CommDev) (now : UInt32) : Prop :=
  comm.ticksOut < absTicks (now - comm.waitTicks)

instance (comm : CommDev) (now : UInt32) : Decidable (comm.TimedOut now) :=
  inferInstanceAs (Decidable (_ < _))

/-- What a round leaves of the pending bytes and of the timer. -/
structure DispatchEnds (comm after : CommDev) (now : UInt32) (answers : List DelInfo)
    (pending left : List UInt8) : Prop where
  accepted : ∀ info ∈ answers, info.state = .accept →
    left = pending.drop info.delLen ∧ after.waitTicks = now
  rejected : (∀ info ∈ answers, info.state = .reject) → ∃ least,
    IsLeast {delLen | ∃ info ∈ answers, info.delLen = delLen} least ∧
      left = pending.drop least ∧ after.waitTicks = now
  waits : (∃ info ∈ answers, info.state = .waiting) → (∀ info ∈ answers, info.state ≠ .accept) →
    ¬ comm.TimedOut now → left = pending ∧ after.waitTicks = comm.waitTicks
  timedOut : (∃ info ∈ answers, info.state = .waiting) →
    (∀ info ∈ answers, info.state ≠ .accept) →
    comm.TimedOut now → left = [] ∧ after.waitTicks = now

variable {buf : Nat → UInt8} {len : Nat} {slots : List (Option (AnyliseHandle chip))} {ram : Ram}
  {schedule : FlashSchedule} {state : State} {answers infos : List DelInfo} {resets : Bool}

/-! ## The loops -/

/-- How the first loop ends: at the handler that accepts, or with the answers of all. -/
inductive EachEnds (infos answers : List DelInfo) (anylised : Anylised) : Prop
  | accepted {earlier : List DelInfo} {last : DelInfo} :
      answers = earlier ++ [last] → (∀ info ∈ earlier, info.state ≠ .accept) →
      last.state = .accept → anylised.accepted = some last.delLen →
      EachEnds infos answers anylised
  | passed : (∀ info ∈ answers, info.state ≠ .accept) → anylised.accepted = none →
      anylised.reset = false → anylised.infos = infos ++ answers → EachEnds infos answers anylised

theorem EachEnds.cons {first : DelInfo} {anylised : Anylised} (notAccepted : first.state ≠ .accept)
    (ends : EachEnds (infos ++ [first]) answers anylised) :
    EachEnds infos (first :: answers) anylised := by
  cases ends with
  | @accepted earlier last shape others accept delLen =>
      have longer : first :: answers = (first :: earlier) ++ [last] := congrArg (first :: ·) shape
      refine .accepted longer ?_ accept delLen
      intro info member
      rcases List.mem_cons.mp member with rfl | later
      · exact notAccepted
      · exact others info later
  | passed others none reset all =>
      refine .passed ?_ none reset (all.trans (List.append_assoc _ _ _))
      intro info member
      rcases List.mem_cons.mp member with rfl | later
      · exact notAccepted
      · exact others info later

theorem run_anyliseEach (answered : Answered buf len slots ram schedule state answers resets)
    (infos : List DelInfo) : ∃ anylised after rest,
    Prog.run (anyliseEach buf len slots ram infos) schedule state = .done anylised after rest ∧
      anylised.reset = resets ∧ EachEnds infos answers anylised := by
  induction answered generalizing infos with
  | nil => exact ⟨_, _, _, rfl, rfl, .passed nofun rfl rfl (List.append_nil infos).symm⟩
  | empty later ih =>
      obtain ⟨anylised, after, rest, ended, reset, ends⟩ := ih (infos ++ [⟨.reject, len⟩])
      exact ⟨anylised, after, rest, ended, reset, ends.cons nofun⟩
  | @accepts handle later ram schedule rest state after handled run accept =>
      refine ⟨⟨infos, some handled.info.delLen, handled.ram, handled.reset⟩, after, rest, ?_, rfl,
        .accepted (List.nil_append _).symm nofun accept rfl⟩
      rw [anyliseEach, Prog.run_bind, run]
      dsimp only
      rw [if_pos accept, Prog.run]
  | other run notAccepted later ih =>
      obtain ⟨anylised, after, rest, ended, reset, ends⟩ := ih (infos ++ [_])
      refine ⟨anylised, after, rest, ?_, reset, ends.cons notAccepted⟩
      rw [anyliseEach, Prog.run_bind, run]
      dsimp only
      rw [if_neg notAccepted]
      exact ended

/-- Once a length is set, the second loop finds the least one. -/
theorem delMin_isLeast {least : Nat} (set : 0 < least)
    (rejects : ∀ info ∈ infos, info.state = .reject ∧ 0 < info.delLen) :
    ∃ final, delMin infos least = some final ∧
      IsLeast {delLen | delLen = least ∨ ∃ info ∈ infos, info.delLen = delLen} final := by
  induction infos generalizing least with
  | nil => exact ⟨least, rfl, .inl rfl, by rintro _ (rfl | ⟨_, ⟨⟩, -⟩); exact le_rfl⟩
  | cons first later ih =>
      obtain ⟨reject, positive⟩ := rejects first List.mem_cons_self
      obtain ⟨final, found, member, bound⟩ := @ih (min least first.delLen) (by omega)
        fun info inside => rejects info (List.mem_cons_of_mem _ inside)
      refine ⟨final, ?_, ?_, ?_⟩
      · rw [delMin, if_pos reject, if_neg (by omega), found]
      · rcases member with isMin | ⟨info, inside, delLen⟩
        · rcases Nat.le_total least first.delLen with small | large
          · exact .inl (isMin.trans (Nat.min_eq_left small))
          · exact .inr ⟨first, List.mem_cons_self,
              (isMin.trans (Nat.min_eq_right large)).symm⟩
        · exact .inr ⟨info, List.mem_cons_of_mem _ inside, delLen⟩
      · have atMin := bound (.inl rfl)
        rintro delLen (rfl | ⟨info, inside, rfl⟩)
        · omega
        · rcases List.mem_cons.mp inside with rfl | behind
          · omega
          · exact bound (.inr ⟨info, behind, rfl⟩)

/-- If all reject, with lengths that are not zero, the second loop finds the least
length. -/
theorem delMin_rejects (nonempty : infos ≠ [])
    (rejects : ∀ info ∈ infos, info.state = .reject ∧ 0 < info.delLen) :
    ∃ least, delMin infos 0 = some least ∧
      IsLeast {delLen | ∃ info ∈ infos, info.delLen = delLen} least := by
  cases infos with
  | nil => exact absurd rfl nonempty
  | cons first later =>
      obtain ⟨reject, positive⟩ := rejects first List.mem_cons_self
      obtain ⟨final, found, least⟩ := @delMin_isLeast later first.delLen positive
        fun info inside => rejects info (List.mem_cons_of_mem _ inside)
      refine ⟨final, ?_, ?_⟩
      · rw [delMin, if_pos reject, if_pos rfl, found]
      · simpa only [List.exists_mem_cons_iff, @eq_comm Nat first.delLen] using least

/-- If some place waits, the second loop finds no length. -/
theorem delMin_waits {least : Nat} (waits : ∃ info ∈ infos, info.state ≠ .reject) :
    delMin infos least = none := by
  induction infos generalizing least with
  | nil =>
      obtain ⟨_, ⟨⟩, -⟩ := waits
  | cons first later ih =>
      rw [delMin]
      split
      · rename_i reject
        obtain ⟨info, inside, other⟩ := waits
        rcases List.mem_cons.mp inside with rfl | behind
        · exact absurd reject other
        · exact ih ⟨info, behind, other⟩
      · rfl

theorem Answered.ne_nil (places : slots.length = protocolFunMax)
    (answered : Answered buf len slots ram schedule state answers resets) : answers ≠ [] := by
  cases answered with
  | nil => cases places
  | _ => exact List.cons_ne_nil _ _

/-! ## The round -/

/-- What the analysis does once the handlers have answered. -/
def CommDev.conclude (comm : CommDev) (now : UInt32) (anylised : Anylised) : Processed :=
  if anylised.reset then ⟨comm, anylised.ram, false, true⟩
  else match anylised.accepted with
    | some delLen =>
        ⟨{ comm with ring := (delDataFromBuf comm.ring delLen).2, waitTicks := now },
          anylised.ram, false, false⟩
    | none => match delMin anylised.infos 0 with
      | some least =>
          ⟨{ comm with ring := (delDataFromBuf comm.ring least).2, waitTicks := now },
            anylised.ram, false, false⟩
      | none =>
          if comm.TimedOut now then
            ⟨{ comm with ring := clearDateFromBuf comm.ring, waitTicks := now },
              anylised.ram, true, false⟩
          else ⟨comm, anylised.ram, false, false⟩

theorem conclude_reset (comm : CommDev) (now : UInt32) (anylised : Anylised) :
    (comm.conclude now anylised).reset = anylised.reset := by
  unfold CommDev.conclude
  cases anylised.reset with
  | true => rfl
  | false =>
      cases anylised.accepted with
      | some delLen => rfl
      | none =>
          cases delMin anylised.infos 0 with
          | some least => rfl
          | none =>
              dsimp only
              rw [if_neg Bool.false_ne_true]
              split <;> rfl

/-- The device after the read of an analysis. -/
def CommDev.read (comm : CommDev) : CommDev :=
  { comm with ring := comm.received.buf, buf := comm.received.dest }

theorem protocolAnyliseProcess_eq {now : UInt32} {comm : CommDev}
    (pending : comm.received.count ≠ 0) :
    protocolAnyliseProcess slots now comm ram =
      anyliseEach comm.received.dest comm.received.count slots ram [] >>= fun anylised =>
        .done (comm.read.conclude now anylised) := by
  refine (if_neg pending).trans (congrArg (_ >>= ·) (funext fun anylised => ?_))
  unfold CommDev.conclude
  split
  · rfl
  · cases anylised.accepted with
    | some delLen => rfl
    | none =>
        cases delMin anylised.infos 0 with
        | some least => rfl
        | none => exact (apply_ite Prog.done _ _ _).symm

theorem conclude_ends {comm : CommDev} {now : UInt32} {anylised : Anylised} {capacity : Nat}
    {queue : Fifo UInt8 capacity} (refines : Refines comm.ring queue) (nonempty : answers ≠ [])
    (lengths : ∀ info ∈ answers, info.state = .reject → 0 < info.delLen)
    (ends : EachEnds [] answers anylised) (notReset : anylised.reset = false) :
    ∃ left : Fifo UInt8 capacity, Refines (comm.conclude now anylised).comm.ring left ∧
      DispatchEnds comm (comm.conclude now anylised).comm now answers queue.items left.items := by
  unfold CommDev.conclude
  rw [notReset, if_neg Bool.false_ne_true]
  cases ends with
  | @accepted earlier last shape others accept delLen =>
      have member : last ∈ answers := shape ▸ List.mem_append_right _ List.mem_cons_self
      rw [delLen]
      refine ⟨_, (refines.del last.delLen).2, ?_, ?_, ?_, ?_⟩
      · intro info inside accepts
        rw [shape] at inside
        rcases List.mem_append.mp inside with before | isLast
        · exact absurd accepts (others info before)
        · rw [List.mem_singleton.mp isLast]
          exact ⟨rfl, rfl⟩
      · intro rejects
        exact absurd ((rejects last member).symm.trans accept) nofun
      · exact fun _ none => absurd accept (none last member)
      · exact fun _ none => absurd accept (none last member)
  | passed others none reset all =>
      rw [List.nil_append] at all
      rw [none, all]
      by_cases waits : ∃ info ∈ answers, info.state ≠ .reject
      · rw [delMin_waits waits]
        have notAll (rejects : ∀ info ∈ answers, info.state = .reject) : False := by
          obtain ⟨info, inside, other⟩ := waits
          exact other (rejects info inside)
        dsimp only
        by_cases out : comm.TimedOut now
        · rw [if_pos out]
          refine ⟨_, (refines.step .clearDate).state, ?_, ?_, ?_, ?_⟩
          · exact fun info inside accept => absurd accept (others info inside)
          · exact fun rejects => (notAll rejects).elim
          · exact fun _ _ inTime => absurd out inTime
          · exact fun _ _ _ => ⟨rfl, rfl⟩
        · rw [if_neg out]
          refine ⟨_, refines, ?_, ?_, ?_, ?_⟩
          · exact fun info inside accept => absurd accept (others info inside)
          · exact fun rejects => (notAll rejects).elim
          · exact fun _ _ _ => ⟨rfl, rfl⟩
          · exact fun _ _ late => absurd late out
      · have rejects : ∀ info ∈ answers, info.state = .reject := fun info inside =>
          not_not.mp fun other => waits ⟨info, inside, other⟩
        obtain ⟨least, found, isLeast⟩ := delMin_rejects nonempty fun info inside =>
          ⟨rejects info inside, lengths info inside (rejects info inside)⟩
        have noneWaits (waiting : ∃ info ∈ answers, info.state = .waiting) : False := by
          obtain ⟨info, inside, wait⟩ := waiting
          exact absurd ((rejects info inside).symm.trans wait) nofun
        rw [found]
        refine ⟨_, (refines.del least).2, ?_, ?_, ?_, ?_⟩
        · exact fun info inside accept => absurd accept (others info inside)
        · exact fun _ => ⟨least, isLeast, rfl, rfl⟩
        · exact fun waiting => (noneWaits waiting).elim
        · exact fun waiting => (noneWaits waiting).elim

/-- The processor is reset exactly if the handler that accepts does so; otherwise the round
deletes what the answers ask for. -/
theorem dispatch_deletes (comm : CommDev) (now : UInt32) (ram : Ram) (schedule : FlashSchedule)
    (state : State) (slots : List (Option (AnyliseHandle chip))) (answers : List DelInfo)
    (resets : Bool) {capacity : Nat} (queue : Fifo UInt8 capacity)
    (refines : Refines comm.ring queue)
    (pending : comm.received.count ≠ 0) (places : slots.length = protocolFunMax)
    (answered : Answered comm.received.dest comm.received.count slots ram schedule state answers
      resets)
    (lengths : ∀ info ∈ answers, info.state = .reject → 0 < info.delLen) :
    ∃ processed after rest,
      Prog.run (protocolAnyliseProcess slots now comm ram) schedule state =
          .done processed after rest ∧
        processed.reset = resets ∧
        (resets = false → ∃ left : Fifo UInt8 capacity,
          Refines processed.comm.ring left ∧
            DispatchEnds comm processed.comm now answers queue.items left.items) := by
  have kept : Refines comm.read.ring queue := by
    rw [CommDev.read, CommDev.received, refines.read_keep]
    exact refines
  obtain ⟨anylised, after, rest, ended, reset, ends⟩ := run_anyliseEach answered []
  refine ⟨comm.read.conclude now anylised, after, rest, ?_, ?_, ?_⟩
  · rw [protocolAnyliseProcess_eq pending, Prog.run_bind, ended]
    rfl
  · rw [← reset]
    exact conclude_reset comm.read now anylised
  · intro returns
    obtain ⟨left, final, round⟩ :=
      @conclude_ends answers comm.read now anylised capacity queue kept (answered.ne_nil places)
        lengths ends (reset.trans returns)
    exact ⟨left, final, round.accepted, round.rejected, round.waits, round.timedOut⟩

/-- A handler with a fixed answer. -/
def answering (info : DelInfo) : AnyliseHandle chip :=
  fun ram _ _ => .done ⟨info, ram, [], false⟩

theorem run_answering {info : DelInfo} :
    Prog.run (@answering chip info ram buf len) schedule state =
      .done ⟨info, ram, [], false⟩ state schedule :=
  rfl

/-- Three bytes are pending in a ring of eight. -/
def threePending : CommDev where
  ring := addDataToBuf (rxBufInit (fun _ => 0) 8) [1, 2, 3]
  buf := fun _ => 0
  bufLen := 8
  waitTicks := 0
  ticksOut := 100

/-- Two handlers and an empty place reject: the least of their lengths is deleted. -/
theorem dispatch_deletes_least : ∃ processed after rest, ∃ left : Fifo UInt8 7,
    Prog.run (protocolAnyliseProcess
        [some (@answering sampleChip ⟨.reject, 2⟩), none, some (answering ⟨.reject, 1⟩)] 7
        threePending sampleRam) faultless ⟨fun _ => erasedByte, true, []⟩ =
      .done processed after rest ∧
    processed.reset = false ∧ Refines processed.comm.ring left ∧ left.items = [2, 3] := by
  have refines := (refines_init (fun _ => 0) (by decide : 1 ≤ 8) (by decide)).add [1, 2, 3]
  have count : threePending.received.count = 3 := by decide
  have answered : Answered threePending.received.dest threePending.received.count
      [some (@answering sampleChip ⟨.reject, 2⟩), none, some (answering ⟨.reject, 1⟩)] sampleRam
      faultless ⟨fun _ => erasedByte, true, []⟩ [⟨.reject, 2⟩, ⟨.reject, 3⟩, ⟨.reject, 1⟩]
      false := by
    rw [count]
    exact .other run_answering nofun (.empty (.other run_answering nofun .nil))
  obtain ⟨processed, after, rest, ended, reset, round⟩ := dispatch_deletes threePending 7
    sampleRam faultless ⟨fun _ => erasedByte, true, []⟩ _ _ _ _ refines (by decide) rfl answered
    (by decide)
  obtain ⟨left, final, ends⟩ := round rfl
  obtain ⟨least, ⟨member, bound⟩, dropped, -⟩ := ends.rejected (by decide)
  have one : least ≤ 1 := bound ⟨⟨.reject, 1⟩, by decide, rfl⟩
  have positive : 0 < least := by
    have lengths : ∀ info ∈ ([⟨.reject, 2⟩, ⟨.reject, 3⟩, ⟨.reject, 1⟩] : List DelInfo),
        0 < info.delLen := by decide
    obtain ⟨info, inside, rfl⟩ := member
    exact lengths info inside
  obtain rfl : least = 1 := by omega
  exact ⟨processed, after, rest, left, ended, reset, final, dropped⟩

end LedFirmware.App
