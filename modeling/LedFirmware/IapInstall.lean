import LedFirmware.IapBootGate

/-!
# Installing an image in the run area

Both update branches erase whole pages of the run area, store the image there,
and erase the flag page once an attempt has verified.  This file describes the
memory they leave and what follows when the first attempt verifies.
-/

namespace LedFirmware

open CrashProgram NorFlash

variable {chip : Chip}

/-- The memory with the pages an image occupies erased and the image stored. -/
def installed (mem : Mem) (length : Nat) (image : Nat → UInt8) : Mem :=
  overlay flashAppRunAddr length image
    (overlay flashAppRunAddr (roundUp flashPageSize length) (fun _ => erasedByte) mem)

/-- The memory after `RunAppMode`. -/
def flagErased (chip : Chip) (mem : Mem) : Mem :=
  overlay chip.addrIapFlag flashPageSize (fun _ => erasedByte) mem

/-- The whole pages of an image end below the copy area. -/
def BelowCopy (chip : Chip) (length : Nat) : Prop :=
  flashAppRunAddr + roundUp flashPageSize length ≤ chip.addrAppCopy

theorem page_pos : 0 < flashPageSize := by simp [flashPageSize]

/-- A padded piece at an aligned offset stays inside whole pages. -/
theorem piece_in_pages {offset length total : Nat} (aligned : offset % 8 = 0)
    (room : offset + length ≤ total) :
    offset + roundUp 8 length ≤ roundUp flashPageSize total := by
  have longer := le_roundUp page_pos total
  have units : length ≤ 8 * ((roundUp flashPageSize total - offset) / 8) := by
    simp only [roundUp, flashPageSize] at longer ⊢
    omega
  have rounded := roundUp_le (by omega) units
  omega

theorem installed_run {mem : Mem} {length index : Nat} {image : Nat → UInt8}
    (inside : index < length) :
    installed mem length image (flashAppRunAddr + index) = image index := by
  rw [installed, overlay_inside _ _ (by omega) (by omega), Nat.add_sub_cancel_left]

theorem installed_eqOn (mem : Mem) (length : Nat) (image : Nat → UInt8) :
    Set.EqOn (installed mem length image) mem (runPages length)ᶜ :=
  ((overlay_eqOn _ _ _ _).mono (Set.compl_subset_compl.mpr
    (Set.Ico_subset_Ico_right (Nat.add_le_add_left (le_roundUp page_pos length) _)))).trans
    (overlay_eqOn _ _ _ _)

/-- What is installed does not depend on the previous contents of its pages. -/
theorem installed_congr {first second : Mem} {length : Nat} {one other : Nat → UInt8}
    (outside : Set.EqOn first second (runPages length)ᶜ)
    (images : ∀ index < length, one index = other index) :
    installed first length one = installed second length other := by
  funext cell
  by_cases image : flashAppRunAddr ≤ cell ∧ cell < flashAppRunAddr + length
  · rw [installed, installed, overlay_inside _ _ image.1 image.2,
      overlay_inside _ _ image.1 image.2]
    exact images _ (by omega)
  · have outsideImage : cell < flashAppRunAddr ∨ flashAppRunAddr + length ≤ cell := by omega
    rw [installed, installed, overlay_outside one _ outsideImage,
      overlay_outside other _ outsideImage]
    by_cases pages : cell ∈ runPages length
    · have bounds := Set.mem_Ico.mp pages
      rw [overlay_inside _ _ bounds.1 bounds.2, overlay_inside _ _ bounds.1 bounds.2]
    · have bounds : cell < flashAppRunAddr ∨
          flashAppRunAddr + roundUp flashPageSize length ≤ cell := by
        rw [runPages, Set.mem_Ico] at pages
        omega
      rw [overlay_outside _ _ bounds, overlay_outside _ _ bounds]
      exact outside pages

theorem flagErased_eqOn (chip : Chip) (mem : Mem) :
    Set.EqOn (flagErased chip mem) mem (pageAt chip.addrIapFlag)ᶜ := overlay_eqOn _ _ _ _

/-- The flag, the header and the copy area lie outside the pages of an image
below the copy area. -/
theorem outside_runPages {length cell : Nat} (below : BelowCopy chip length)
    (above : chip.addrAppCopy ≤ cell) : cell ∉ runPages length := by
  rw [BelowCopy] at below
  rw [runPages, Set.mem_Ico]
  omega

theorem copy_le_info (chip : Chip) : chip.addrAppCopy ≤ chip.addrAppInfo :=
  le_trans (Nat.le_add_right _ _) (copy_below_info chip)

theorem info_lt_flag (chip : Chip) :
    chip.addrAppInfo + 2 * flashPageSize ≤ chip.addrIapFlag := by
  have info := info_below_param chip
  have param := param_below_flag chip
  omega

/-- What the checks read lies at or above the copy area. -/
theorem checks_congr {first second : Mem}
    (same : ∀ cell, chip.addrAppCopy ≤ cell → first cell = second cell) :
    iapFlag chip first = iapFlag chip second ∧ headerAt chip first = headerAt chip second ∧
      ∀ header, GateAccepts chip first header ↔ GateAccepts chip second header := by
  have copyInfo := copy_le_info chip
  have infoFlag := info_lt_flag chip
  refine ⟨LittleEndian.value_congr fun index _ => same _ (by omega),
    IapUpdataParam.read_congr fun index _ => same _ (by omega), fun header => ?_⟩
  have crc : crc32 (bytesAt first chip.addrAppCopy) header.updatesTotalSize =
      crc32 (bytesAt second chip.addrAppCopy) header.updatesTotalSize :=
    crc32_congr fun index _ => same _ (Nat.le_add_right _ _)
  rw [GateAccepts, GateAccepts, crc]

theorem verdict_update {mem : Mem} (updating : iapFlag chip mem = otaUpdateApp)
    (accepted : GateAccepts chip mem (headerAt chip mem)) :
    verdict chip mem = .update (headerAt chip mem) := by
  have notRunning : iapFlag chip mem ≠ otaRunApp := by
    rw [updating]
    decide
  rw [verdict, if_neg notRunning, if_pos updating, if_pos accepted]

/-- An update verdict is given on the request flag, to an accepted header. -/
theorem verdict_accepts {mem : Mem} {header : IapUpdataParam}
    (update : verdict chip mem = .update header) :
    iapFlag chip mem = otaUpdateApp ∧ GateAccepts chip mem header := by
  unfold verdict at update
  split at update
  · cases update
  · split at update
    · rename_i updating
      split at update
      · rename_i accepted
        cases update
        exact ⟨updating, accepted⟩
      · cases update
    · cases update

/-- The end of a verified attempt: only the flag erase changes the memory. -/
theorem wp_finish {post : FlashPost chip.geometry BootEntry} {state : State}
    (before : ∀ locked, post.lost { state with locked })
    (after : ∀ locked, post.lost
      ⟨flagErased chip state.mem, locked, .erased chip.addrIapFlag :: state.log⟩)
    (done : post.done .reset
      ⟨flagErased chip state.mem, true, .erased chip.addrIapFlag :: state.log⟩) :
    (setLock chip.geometry true >>= fun _ => runAppMode chip >>= fun _ =>
      .done BootEntry.reset).wp Reliable post state := by
  refine (Prog.wp_bind _ _ _ _).mpr (wp_setLock (before state.locked) ?_)
  refine (Prog.wp_bind _ _ _ _).mpr ((Prog.wp_bind _ _ _ _).mpr (wp_setLock (before true) ?_))
  have contains : chip.geometry.Contains chip.addrIapFlag := by
    obtain ⟨lower, upper⟩ := @covers_flag chip flashPageSize le_rfl
    exact ⟨lower, by have := page_pos; omega⟩
  have erasedPage : fillPage chip.geometry chip.addrIapFlag (fun _ => erasedByte) state.mem =
      flagErased chip state.mem :=
    fillPage_eq_overlay (page_positive chip) (pageFromEnd_aligned chip 1) _ _
  refine (Prog.wp_bind _ _ _ _).mpr ((Prog.wp_bind _ _ _ _).mpr
    (wp_erase rfl contains (before false) ?_))
  rw [erasedPage]
  refine (Prog.wp_done _ _ _).mpr (wp_setLock (after false) ?_)
  simpa only [Prog.wp_done] using done

/-- A boot that updates in its first attempt: the attempt verifies, the flag is
erased, and the processor resets. -/
theorem wp_main_update {uncompress : Uncompress} {fuel : Nat} {header : IapUpdataParam}
    {attempt : FlashProg chip.geometry Bool} {later : List (FlashProg chip.geometry Bool)}
    {post : FlashPost chip.geometry BootEnd} {state : State} {verified : State → Prop}
    (update : verdict chip state.mem = .update header)
    (first : attempts chip uncompress fuel header = attempt :: later)
    (start : ∀ locked, post.lost { state with locked })
    (attempted : attempt.wp Reliable
      ⟨fun accepted after => accepted = true ∧ verified after, post.lost, post.spin⟩
      { state with locked := false })
    (during : ∀ after : State, verified after → ∀ locked, post.lost { after with locked })
    (erased : ∀ after : State, verified after → ∀ locked, post.lost
      ⟨flagErased chip after.mem, locked, .erased chip.addrIapFlag :: after.log⟩)
    (done : ∀ after : State, verified after → post.done .reset
      ⟨flagErased chip after.mem, true, .erased chip.addrIapFlag :: after.log⟩) :
    (main chip uncompress fuel).wp Reliable post state := by
  refine (Prog.wp_bind _ _ _ _).mpr (wp_bootEntry (start state.locked) ?_)
  rw [update]
  refine (Prog.wp_bind _ _ _ _).mpr (wp_setLock (start state.locked) ?_)
  rw [first]
  refine (Prog.wp_bind _ _ _ _).mpr (Prog.wp_mono attempted ?_ (fun _ holds => holds)
    fun _ holds => holds)
  rintro accepted after ⟨rfl, holds⟩
  exact wp_finish (during after holds) (erased after holds)
    ((Prog.wp_done _ _ _).mpr (done after holds))

/-! ## How the attempts end -/

/-- If the attempts end in a reset, one of them verified and only the flag page
changed after it. -/
theorem updateAttempts_reset {allowed : Fault → Prop} {checked : State → Prop}
    (attempts : List (FlashProg chip.geometry Bool))
    (each : ∀ attempt ∈ attempts, ∀ state : State, attempt.wp allowed
      ⟨fun verified after => verified = true → checked after, fun _ => True, fun _ => True⟩ state)
    (state : State) :
    (updateAttempts chip attempts).wp allowed
      ⟨fun entry after => entry = .reset → ∃ before, checked before ∧
          Confined chip.geometry (pageAt chip.addrIapFlag) before after,
        fun _ => True, fun _ => True⟩ state := by
  induction attempts generalizing state with
  | nil =>
      have last : (updateAttempts chip []).wp allowed
          ⟨fun entry _ => entry = .otaoe, fun _ => True, fun _ => True⟩ state := by
        refine (Prog.wp_bind _ _ _ _).mpr (wp_setLock trivial ?_)
        exact Prog.wp_bind_last (fun _ => trivial) (fun _ => trivial)
          fun forced after => (Prog.wp_done _ _ _).mpr rfl
      refine Prog.wp_mono last ?_ (fun _ holds => holds) fun _ holds => holds
      rintro entry after rfl impossible
      cases impossible
  | cons attempt later ih =>
      refine (Prog.wp_bind _ _ _ _).mpr (Prog.wp_mono
        (each attempt List.mem_cons_self state) ?_ (fun _ holds => holds) fun _ holds => holds)
      intro verified after holds
      refine Prog.wp_ite (fun accepted => ?_) fun _ => ?_
      · have finish : Touches chip.geometry (pageAt chip.addrIapFlag)
            (setLock chip.geometry true >>= fun _ => runAppMode chip >>= fun _ =>
              .done BootEntry.reset) :=
          .bind (.setLock true) fun _ => .bind (touches_runAppMode subset_rfl) fun _ => .done _
        exact Prog.wp_mono (wp_of_touches finish after)
          (fun _ _ confined _ => ⟨after, holds accepted, confined⟩) (fun _ _ => trivial)
          fun _ _ => trivial
      · exact ih (fun other member => each other (List.mem_cons_of_mem _ member)) after

theorem iapFlag_forced (mem : Mem) : iapFlag chip
    (overlay chip.addrIapFlag 8 (LittleEndian.byte otaForceUpdateApp) mem) =
      otaForceUpdateApp := iapFlag_overlay (by decide)

/-- Without failures, attempts that do not end in a reset leave the force flag. -/
theorem updateAttempts_flag (attempts : List (FlashProg chip.geometry Bool)) (state : State) :
    (updateAttempts chip attempts).wp Reliable
      ⟨fun entry (after : State) => entry = .reset ∨
          entry = .otaoe ∧ iapFlag chip after.mem = otaForceUpdateApp,
        fun _ => True, fun _ => True⟩ state := by
  induction attempts generalizing state with
  | nil =>
      have ends : Ends (updateAttempts chip []) state.mem state.locked _ _ _ :=
        (Ends.setLock true).bind (ends_forceUpdateAppMode.bind (Ends.done BootEntry.otaoe))
      refine Prog.wp_mono (ends.wp state.log) ?_ (fun _ holds => holds)
        fun _ impossible => impossible.elim
      rintro entry after ⟨rfl, reached, -⟩
      refine Or.inr ⟨rfl, ?_⟩
      rw [reached]
      exact iapFlag_forced _
  | cons attempt later ih =>
      refine Prog.wp_bind_last (fun _ => trivial) (fun _ => trivial) fun verified after => ?_
      refine Prog.wp_ite (fun _ => ?_) fun _ => ih after
      refine (Prog.wp_bind _ _ _ _).mpr (wp_setLock trivial ?_)
      exact Prog.wp_bind_last (fun _ => trivial) (fun _ => trivial)
        fun left later => (Prog.wp_done _ _ _).mpr (Or.inl rfl)

end LedFirmware
