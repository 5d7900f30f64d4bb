import LedFirmware.LedLamps
import Mathlib.Data.List.FinRange

/-!
# The light shows of the LED board

Each `twinkle_mode` is a program of calls with loops over lamp numbers in `u8`
arithmetic.  What it shows is a short list of pictures: all lamps of a colour, the
lamps up to one, one lamp alone, the lamps around the middle, two lamps that run
apart.
-/

namespace LedFirmware

open Playback

/-! ## The programs -/

/-- The same call for lamp `num` of each colour. -/
def selectEach (colours : List LedColour) (num : UInt8) (control : Bool) : List LedCall :=
  colours.map fun sel => .select num sel control

/-- The loop over all 19 lamps. -/
def selectAll (colours : List LedColour) (control : Bool) : List LedCall :=
  (List.range 19).flatMap fun num => selectEach colours (UInt8.ofNat num) control

def twinkleModeon : List LedCall := selectAll [.red, .orange] true

def twinkleModeoff : List LedCall := selectAll [.red, .orange] false

/-- All lamps on, then off. -/
def twinkleBlink (colours : List LedColour) : List LedCall :=
  selectAll colours true ++ .delay 50 :: (selectAll colours false ++ [.delay 80])

def twinkleMode1 : List LedCall := twinkleBlink [.red]
def twinkleMode2 : List LedCall := twinkleBlink [.orange]
def twinkleMode3 : List LedCall := twinkleBlink [.red, .orange]

/-- One lamp after the other on, then all off. -/
def twinkleFill (colours : List LedColour) (ticks : Nat) : List LedCall :=
  (List.range 19).flatMap (fun num => selectEach colours (UInt8.ofNat num) true ++ [.delay 5]) ++
    .delay ticks :: selectAll colours false

def twinkleMode4 : List LedCall := twinkleFill [.red] 20
def twinkleMode5 : List LedCall := twinkleFill [.orange] 40
def twinkleMode6 : List LedCall := twinkleFill [.red, .orange] 40

/-- One lamp at a time.  At `num = 0` the lamp to switch off has the number 255. -/
def twinkleScan (colours : List LedColour) : List LedCall :=
  (List.range 20).flatMap fun num =>
    selectEach colours (UInt8.ofNat num) true ++ selectEach colours (UInt8.ofNat num - 1) false ++
      [.delay 30]

def twinkleMode7 : List LedCall := twinkleScan [.red]
def twinkleMode8 : List LedCall := twinkleScan [.orange]
def twinkleMode9 : List LedCall := twinkleScan [.red, .orange]

/-- Two lamps for each colour. -/
def selectPair (colours : List LedColour) (right left : UInt8) (control : Bool) : List LedCall :=
  colours.flatMap fun sel => [.select right sel control, .select left sel control]

/-- From the middle lamp to both sides. -/
def twinkleSpread (colours : List LedColour) : List LedCall :=
  (List.range 10).flatMap fun num =>
    selectPair colours (9 + UInt8.ofNat num) (9 - UInt8.ofNat num) true ++ [.delay 15]

def twinkleMode10 : List LedCall := twinkleSpread [.red]
def twinkleMode11 : List LedCall := twinkleSpread [.orange]
def twinkleMode12 : List LedCall := twinkleSpread [.red, .orange]

/-- Two lamps that run apart from the middle. -/
def twinklePart (colours : List LedColour) : List LedCall :=
  (List.range 10).flatMap fun num =>
    selectPair colours (9 + UInt8.ofNat num) (9 - UInt8.ofNat num) true ++
      selectPair colours (9 + UInt8.ofNat num - 1) (9 - UInt8.ofNat num + 1) false ++ [.delay 15]

def twinkleMode13 : List LedCall := twinklePart [.red]
def twinkleMode14 : List LedCall := twinklePart [.orange]
def twinkleMode15 : List LedCall := twinklePart [.red, .orange]

def twinkleMode16 : List LedCall := selectAll [.red] true
def twinkleMode17 : List LedCall := selectAll [.orange] true

/-- The `switch` of `LEDcontrol_thread_entry`. -/
def ledRound (mode : UInt8) : List LedCall :=
  if mode = 0x00 then twinkleModeoff
  else if mode = 0x01 then twinkleModeon
  else if mode = 0x02 then twinkleModeoff ++ twinkleMode1
  else if mode = 0x03 then twinkleModeoff ++ twinkleMode2
  else if mode = 0x04 then twinkleModeoff ++ twinkleMode3
  else if mode = 0x05 then twinkleModeoff ++ twinkleMode4
  else if mode = 0x06 then twinkleModeoff ++ twinkleMode5
  else if mode = 0x07 then twinkleModeoff ++ twinkleMode6
  else if mode = 0x08 then twinkleModeoff ++ twinkleMode7
  else if mode = 0x09 then twinkleModeoff ++ twinkleMode8
  else if mode = 0x0A then twinkleModeoff ++ twinkleMode9
  else if mode = 0x0B then twinkleModeoff ++ twinkleMode10
  else if mode = 0x0C then twinkleModeoff ++ twinkleMode11
  else if mode = 0x0D then twinkleModeoff ++ twinkleMode12
  else if mode = 0x0E then twinkleModeoff ++ twinkleMode13
  else if mode = 0x0F then twinkleModeoff ++ twinkleMode14
  else if mode = 0x10 then twinkleModeoff ++ twinkleMode15
  else if mode = 0x1A then twinkleMode16
  else if mode = 0x1B then twinkleMode17
  else [.delay 10]

/-! ## The pictures -/

/-- Of these colours the lamps of a set are lit, and no others. -/
def Lamps.only (colours : List LedColour) (lit : Nat → Bool) : Lamps :=
  fun num sel => decide (sel ∈ colours) && lit num

/-- No lamp is lit. -/
def Lamps.dark : Lamps := fun _ _ => false

/-- All lamps of these colours switched. -/
def Lamps.whole (lamps : Lamps) (colours : List LedColour) (control : Bool) : Lamps :=
  fun num sel => if sel ∈ colours then control else lamps num sel

/-- What is shown, and which lamps stay lit. -/
abbrev Show := List (Pause Lamps) × Lamps

def blinkShow (colours : List LedColour) : Show :=
  ([(50, .only colours fun _ => true), (80, .dark)], .dark)

def fillShow (colours : List LedColour) (ticks : Nat) : Show :=
  ((List.range 19).map (fun k => (5, .only colours (· ≤ k))) ++
      [(ticks, .only colours fun _ => true)],
    .dark)

/-- The waits for a lamp that there is not come before the first and the last picture. -/
def scanShow (colours : List LedColour) : Show :=
  ((List.range 20).flatMap (fun k =>
      (if k = 0 then List.replicate colours.length (2, Lamps.only colours (· = 0))
        else if k = 19 then List.replicate colours.length (2, Lamps.only colours (· = 18))
        else []) ++ [(30, Lamps.only colours (· = k))]),
    .dark)

def spreadShow (colours : List LedColour) : Show :=
  ((List.range 10).map fun k => (15, .only colours fun num => 9 ≤ num + k ∧ num ≤ 9 + k),
    .only colours fun _ => true)

def partShow (colours : List LedColour) : Show :=
  ((List.range 10).map fun k => (15, .only colours fun num => num + k = 9 ∨ num = 9 + k),
    .only colours fun num => num = 0 ∨ num = 18)

/-- The lamps before a round of the thread, what it shows and the lamps behind it. -/
def roundShow (mode : UInt8) (lamps : Lamps) : Show :=
  if mode = 0x00 then ([], .dark)
  else if mode = 0x01 then ([], lamps.whole [.red, .orange] true)
  else if mode = 0x02 then blinkShow [.red]
  else if mode = 0x03 then blinkShow [.orange]
  else if mode = 0x04 then blinkShow [.red, .orange]
  else if mode = 0x05 then fillShow [.red] 20
  else if mode = 0x06 then fillShow [.orange] 40
  else if mode = 0x07 then fillShow [.red, .orange] 40
  else if mode = 0x08 then scanShow [.red]
  else if mode = 0x09 then scanShow [.orange]
  else if mode = 0x0A then scanShow [.red, .orange]
  else if mode = 0x0B then spreadShow [.red]
  else if mode = 0x0C then spreadShow [.orange]
  else if mode = 0x0D then spreadShow [.red, .orange]
  else if mode = 0x0E then partShow [.red]
  else if mode = 0x0F then partShow [.orange]
  else if mode = 0x10 then partShow [.red, .orange]
  else if mode = 0x1A then ([], lamps.whole [.red] true)
  else if mode = 0x1B then ([], lamps.whole [.orange] true)
  else ([(10, lamps)], lamps)

/-! ## One call for each colour -/

variable {colours : List LedColour} {lamps : Lamps} {num : Nat} {control : Bool}

/-- One lamp of each of these colours switched. -/
def Lamps.each (lamps : Lamps) (colours : List LedColour) (num : Nat) (control : Bool) : Lamps :=
  fun lamp sel => if sel ∈ colours ∧ lamp.val = num then control else lamps lamp sel

theorem each_nil : lamps.each [] num control = lamps := by
  funext lamp sel
  simp [Lamps.each]

theorem each_cons (sel : LedColour) (inside : num < 19) :
    (lamps.paint [(⟨num, inside⟩, sel)] control).each colours num control =
      lamps.each (sel :: colours) num control := by
  funext lamp sel'
  simp only [Lamps.each, Lamps.paint, List.mem_cons, Prod.mk.injEq, Fin.ext_iff]
  grind

theorem toNat_num (inside : num < 256) : (UInt8.ofNat num).toNat = num := by
  rw [UInt8.toNat_ofNat', Nat.mod_eq_of_lt inside]

theorem play_selectEach (inside : num < 19) :
    play lampCall (selectEach colours (UInt8.ofNat num) control) lamps =
      ([], lamps.each colours num control) := by
  induction colours generalizing lamps with
  | nil => simp [selectEach, each_nil]
  | cons sel colours ih =>
      have number := toNat_num (show num < 256 by omega)
      rw [selectEach, List.map_cons, play_cons]
      simp only [lampCall, number, inside, dite_true, Option.toList_none, List.nil_append]
      rw [← selectEach, ih, each_cons]

/-- The default of `Led_ModeSelect`, once for each colour. -/
theorem play_selectEach_outside {number : UInt8} (outside : 19 ≤ number.toNat) :
    play lampCall (selectEach colours number control) lamps =
      (List.replicate colours.length (2, lamps), lamps) := by
  induction colours with
  | nil => simp [selectEach]
  | cons sel colours ih =>
      rw [selectEach, List.map_cons, play_cons]
      simp only [lampCall, Nat.not_lt.mpr outside, dite_false, Option.toList_some]
      rw [← selectEach, ih]
      rfl

theorem play_selectPair {left : Nat} (inside : num < 19) (inside' : left < 19) :
    play lampCall (selectPair colours (UInt8.ofNat num) (UInt8.ofNat left) control) lamps =
      ([], (lamps.each colours num control).each colours left control) := by
  induction colours generalizing lamps with
  | nil => simp [selectPair, each_nil]
  | cons sel colours ih =>
      have number := toNat_num (show num < 256 by omega)
      have number' := toNat_num (show left < 256 by omega)
      rw [selectPair, List.flatMap_cons, play_append, ← selectPair]
      simp only [play_cons, play_nil, lampCall, number, number', inside, inside', dite_true,
        Option.toList_none, List.nil_append, ih]
      congr 1
      funext lamp sel'
      simp only [Lamps.each, Lamps.paint, List.mem_cons, Prod.mk.injEq, Fin.ext_iff]
      grind

theorem play_selectAll :
    play lampCall (selectAll colours control) lamps = ([], lamps.whole colours control) := by
  let scenes (k : Nat) : Lamps :=
    fun lamp sel => if sel ∈ colours ∧ lamp.val < k then control else lamps lamp sel
  have loop := play_loop lampCall 19
    (fun num => selectEach colours (UInt8.ofNat num) control) scenes (fun _ => [])
    fun k inside => by
      rw [play_selectEach inside]
      congr 1
      funext lamp sel
      simp only [Lamps.each, scenes]
      grind
  have before : scenes 0 = lamps := by
    funext lamp sel
    simp [scenes]
  have behind : scenes 19 = lamps.whole colours control := by
    funext lamp sel
    simp [scenes, Lamps.whole, lamp.isLt]
  rw [before, behind] at loop
  exact loop

/-! ## The programs show the pictures -/

theorem play_twinkleModeoff : play lampCall twinkleModeoff lamps = ([], .dark) := by
  rw [twinkleModeoff, play_selectAll]
  congr 1
  funext lamp sel
  cases sel <;> simp [Lamps.whole, Lamps.dark]

theorem dark_whole : Lamps.dark.whole colours true = .only colours fun _ => true := by
  funext lamp sel
  simp [Lamps.whole, Lamps.dark, Lamps.only]

theorem only_whole (lit : Nat → Bool) : (Lamps.only colours lit).whole colours false = .dark := by
  funext lamp sel
  simp only [Lamps.whole, Lamps.dark, Lamps.only]
  grind

theorem play_delay (ticks : Nat) (later : List LedCall) :
    play lampCall (.delay ticks :: later) lamps =
      ((ticks, lamps) :: (play lampCall later lamps).1, (play lampCall later lamps).2) :=
  play_cons _ _ _

theorem play_twinkleBlink : play lampCall (twinkleBlink colours) .dark = blinkShow colours := by
  simp only [twinkleBlink, play_append, play_selectAll, play_delay, play_nil, dark_whole,
    only_whole, blinkShow, List.nil_append]

theorem play_twinkleFill (ticks : Nat) :
    play lampCall (twinkleFill colours ticks) .dark = fillShow colours ticks := by
  have loop := play_loop lampCall 19
    (fun num => selectEach colours (UInt8.ofNat num) true ++ [.delay 5])
    (fun k => .only colours (· < k)) (fun k => [(5, .only colours (· ≤ k))])
    fun k inside => by
      have next : (Lamps.only colours (· < k)).each colours k true =
          .only colours (· < k + 1) := by
        funext lamp sel
        simp only [Lamps.each, Lamps.only]
        grind
      rw [play_append, play_selectEach inside, next, play_delay, play_nil]
      simp only [Nat.lt_succ_iff, List.nil_append]
  have before : Lamps.only colours (· < 0) = .dark := by
    funext lamp sel
    simp [Lamps.only, Lamps.dark]
  have behind : Lamps.only colours (· < 19) = .only colours fun _ => true := by
    funext lamp sel
    simp [Lamps.only, lamp.isLt]
  rw [before, behind] at loop
  simp only [twinkleFill, play_append, loop, play_delay, play_selectAll, only_whole, fillShow,
    List.map_eq_flatMap]

theorem play_twinkleScan : play lampCall (twinkleScan colours) .dark = scanShow colours := by
  have loop := play_loop lampCall 20
    (fun num => selectEach colours (UInt8.ofNat num) true ++
      selectEach colours (UInt8.ofNat num - 1) false ++ [.delay 30])
    (fun k => .only colours (· + 1 = k))
    (fun k =>
      (if k = 0 then List.replicate colours.length (2, Lamps.only colours (· = 0))
        else if k = 19 then List.replicate colours.length (2, Lamps.only colours (· = 18))
        else []) ++ [(30, Lamps.only colours (· = k))])
    fun k inside => by
      rcases k with _ | k
      · have first : (Lamps.only colours (· + 1 = 0)).each colours 0 true =
            .only colours (· = 0) := by
          funext lamp sel
          simp only [Lamps.each, Lamps.only]
          grind
        rw [play_append, play_append, play_selectEach (by omega), first,
          play_selectEach_outside (by decide), play_delay, play_nil]
        simp
      · have number : UInt8.ofNat (k + 1) - 1 = UInt8.ofNat k := by
          rw [UInt8.ofNat_add]
          simp
        by_cases last : k + 1 = 19
        · have off : (Lamps.only colours (· + 1 = k + 1)).each colours k false =
              .only colours (· = k + 1) := by
            funext lamp sel
            simp only [Lamps.each, Lamps.only]
            grind
          rw [play_append, play_append, play_selectEach_outside (by rw [last]; decide), number,
            play_selectEach (by omega), off, play_delay, play_nil]
          obtain rfl : k = 18 := by omega
          simp
        · have on : ((Lamps.only colours (· + 1 = k + 1)).each colours (k + 1) true).each
              colours k false = .only colours (· = k + 1) := by
            funext lamp sel
            simp only [Lamps.each, Lamps.only]
            grind
          rw [play_append, play_append, play_selectEach (by omega), number,
            play_selectEach (by omega), on, play_delay, play_nil]
          simp [last]
  have before : Lamps.only colours (· + 1 = 0) = .dark := by
    funext lamp sel
    simp [Lamps.only, Lamps.dark]
  have behind : Lamps.only colours (· + 1 = 20) = .dark := by
    funext lamp sel
    have := lamp.isLt
    simp only [Lamps.only, Lamps.dark]
    grind
  rw [before, behind] at loop
  exact loop

/-- The numbers around the middle lamp. -/
theorem middle_numbers (inside : num < 10) :
    9 + UInt8.ofNat num = UInt8.ofNat (9 + num) ∧ 9 - UInt8.ofNat num = UInt8.ofNat (9 - num) ∧
      9 + UInt8.ofNat num - 1 = UInt8.ofNat (8 + num) ∧
      9 - UInt8.ofNat num + 1 = UInt8.ofNat (10 - num) := by
  revert num
  decide

theorem play_twinkleSpread : play lampCall (twinkleSpread colours) .dark = spreadShow colours := by
  have loop := play_loop lampCall 10
    (fun num => selectPair colours (9 + UInt8.ofNat num) (9 - UInt8.ofNat num) true ++ [.delay 15])
    (fun k => .only colours fun num => 9 < num + k ∧ num < 9 + k)
    (fun k => [(15, .only colours fun num => 9 ≤ num + k ∧ num ≤ 9 + k)])
    fun k inside => by
      obtain ⟨right, left, -, -⟩ := middle_numbers inside
      have next : ((Lamps.only colours fun num => 9 < num + k ∧ num < 9 + k).each colours (9 + k)
          true).each colours (9 - k) true =
          .only colours fun num => 9 < num + (k + 1) ∧ num < 9 + (k + 1) := by
        funext lamp sel
        simp only [Lamps.each, Lamps.only]
        grind
      rw [play_append, right, left, play_selectPair (by omega) (by omega), next, play_delay,
        play_nil]
      simp only [Nat.lt_succ_iff, ← Nat.add_assoc, List.nil_append]
  have before : (Lamps.only colours fun num => 9 < num + 0 ∧ num < 9 + 0) = .dark := by
    funext lamp sel
    simp only [Lamps.only, Lamps.dark]
    grind
  have behind : (Lamps.only colours fun num => 9 < num + 10 ∧ num < 9 + 10) =
      .only colours fun _ => true := by
    funext lamp sel
    have := lamp.isLt
    simp only [Lamps.only]
    grind
  rw [before, behind] at loop
  rw [twinkleSpread, loop, spreadShow, List.map_eq_flatMap]

theorem play_twinklePart : play lampCall (twinklePart colours) .dark = partShow colours := by
  have loop := play_loop lampCall 10
    (fun num => selectPair colours (9 + UInt8.ofNat num) (9 - UInt8.ofNat num) true ++
      selectPair colours (9 + UInt8.ofNat num - 1) (9 - UInt8.ofNat num + 1) false ++ [.delay 15])
    (fun k => .only colours fun num => 0 < k ∧ (num + k = 10 ∨ num = 8 + k))
    (fun k => [(15, .only colours fun num => num + k = 9 ∨ num = 9 + k)])
    fun k inside => by
      obtain ⟨right, left, right', left'⟩ := middle_numbers inside
      have next : ((((Lamps.only colours fun num => 0 < k ∧ (num + k = 10 ∨ num = 8 + k)).each
          colours (9 + k) true).each colours (9 - k) true).each colours (8 + k) false).each
          colours (10 - k) false =
          .only colours fun num => num + k = 9 ∨ num = 9 + k := by
        funext lamp sel
        simp only [Lamps.each, Lamps.only]
        grind
      have same : (Lamps.only colours fun num =>
          0 < k + 1 ∧ (num + (k + 1) = 10 ∨ num = 8 + (k + 1))) =
          .only colours fun num => num + k = 9 ∨ num = 9 + k := by
        funext lamp sel
        simp only [Lamps.only]
        grind
      rw [play_append, play_append, right', left', right, left,
        play_selectPair (by omega) (by omega), play_selectPair (by omega) (by omega), next, same,
        play_delay, play_nil]
      simp
  have before : (Lamps.only colours fun num => 0 < 0 ∧ (num + 0 = 10 ∨ num = 8 + 0)) = .dark := by
    funext lamp sel
    simp [Lamps.only, Lamps.dark]
  have behind : (Lamps.only colours fun num => 0 < 10 ∧ (num + 10 = 10 ∨ num = 8 + 10)) =
      .only colours fun num => num = 0 ∨ num = 18 := by
    funext lamp sel
    simp only [Lamps.only]
    grind
  rw [before, behind] at loop
  rw [twinklePart, loop, partShow, List.map_eq_flatMap]

/-- The lamps before the round do not matter to a mode that switches them off first. -/
theorem play_behindOff (program : List LedCall) :
    play lampCall (twinkleModeoff ++ program) lamps = play lampCall program .dark := by
  rw [play_append, play_twinkleModeoff]
  rfl

/-- From any lamps, a round of the thread shows the pictures of its mode and leaves
the lamps that they end with. -/
theorem play_ledRound (mode : UInt8) (lamps : Lamps) :
    play lampCall (ledRound mode) lamps = roundShow mode lamps := by
  simp only [ledRound, apply_ite fun calls => play lampCall calls lamps, play_behindOff]
  simp only [play_twinkleModeoff, twinkleModeon, play_selectAll, twinkleMode1, twinkleMode2,
    twinkleMode3, play_twinkleBlink, twinkleMode4, twinkleMode5, twinkleMode6, play_twinkleFill,
    twinkleMode7, twinkleMode8, twinkleMode9, play_twinkleScan, twinkleMode10, twinkleMode11,
    twinkleMode12, play_twinkleSpread, twinkleMode13, twinkleMode14, twinkleMode15,
    play_twinklePart, twinkleMode16, twinkleMode17, play_delay, play_nil, roundShow]

end LedFirmware
