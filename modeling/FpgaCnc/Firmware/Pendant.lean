import FpgaCnc.Firmware.MainLoop

/-!
# Key events of the pendant

A key byte has the button in its high nibble and its state in bit 0. The UART
handler stores it in `pendant_keys` and raises `pendant_pressed`; the loop
lowers the flag and reads `pendant_keys` three times after that. A byte that
arrives while the flag is down but the reads are not done replaces or mixes
with the one being handled.

§1 the image as a function of the bytes · §2 one byte, applied · §3 the key
branch · §4 the invariant · §5 arrivals · §6 runs.
-/

namespace FpgaCnc.HelloLed

open IoProg Dm9000a

/-! ## §1  The image as a function of the bytes -/

/-- The button a key byte is about. -/
def highNibble (keys : BitVec 8) : ℕ := keys.toNat / 16

theorem highNibble_lt (keys : BitVec 8) : highNibble keys < 16 := Nat.div_lt_of_lt_mul keys.isLt

/-- The 16-bit image `(igpio_31_24, igpio_23_16)`, bit by bit. -/
def pendantImage (m : Main) (k : Fin 16) : Bool :=
  (m.g.igpio3124 ++ m.g.igpio2316).getLsbD k

/-- What the image should be: for each button the state in the last byte about
it, or what it was at first. The bytes are given latest first. -/
def expectedImage (init : Fin 16 → Bool) (keys : List (BitVec 8)) (k : Fin 16) : Bool :=
  match keys.find? fun b => highNibble b = k with
  | some b => b.getLsbD 0
  | none => init k

/-- Button `n` goes to `pressed`. -/
def press (image : Fin 16 → Bool) (n : ℕ) (pressed : Bool) (k : Fin 16) : Bool :=
  if n = k then pressed else image k

theorem press_self (image : Fin 16 → Bool) (k : Fin 16) (pressed : Bool) :
    press image k pressed k = pressed := if_pos rfl

theorem press_of_ne (image : Fin 16 → Bool) {n : ℕ} {k : Fin 16} (h : n ≠ k) (pressed : Bool) :
    press image n pressed k = image k := if_neg h

theorem expectedImage_cons (init : Fin 16 → Bool) (b : BitVec 8) (keys : List (BitVec 8)) :
    expectedImage init (b :: keys) =
      press (expectedImage init keys) (highNibble b) (b.getLsbD 0) := by
  funext k
  unfold expectedImage press
  rw [List.find?_cons]
  by_cases h : highNibble b = k <;> simp [h]

/-- A later event hides the state of an earlier one if it is about the same
button. -/
theorem press_press_eq_iff (image : Fin 16 → Bool) {n : ℕ} (hn : n < 16) (p p' : Bool) (a : ℕ)
    (q : Bool) :
    press (press image n p') a q = press (press image n p) a q ↔ a = n ∨ p' = p := by
  constructor
  · intro h
    rcases eq_or_ne a n with ha | ha
    · exact Or.inl ha
    · have hat := congrFun h ⟨n, hn⟩
      rw [press_of_ne (k := ⟨n, hn⟩) _ ha, press_of_ne (k := ⟨n, hn⟩) _ ha] at hat
      exact Or.inr ((press_self image ⟨n, hn⟩ p').symm.trans (hat.trans (press_self _ ⟨n, hn⟩ p)))
  · rintro (rfl | rfl)
    · funext k
      unfold press
      split_ifs <;> rfl
    · rfl

/-- An event may be lost if a later one is about the same button, or the image
shows it already. -/
theorem press_eq_press_press_iff (image : Fin 16 → Bool) (n : Fin 16) (p : Bool) (a : ℕ)
    (q : Bool) :
    press image a q = press (press image n p) a q ↔ a = n ∨ image n = p := by
  constructor
  · intro h
    rcases eq_or_ne a n with ha | ha
    · exact Or.inl ha
    · have hat := congrFun h n
      rw [press_of_ne _ ha, press_of_ne _ ha, press_self] at hat
      exact Or.inr hat
  · rintro (rfl | rfl)
    · funext k
      unfold press
      split_ifs <;> rfl
    · funext k
      unfold press
      split_ifs with ha hk
      · rfl
      · rw [Fin.ext hk]
      · rfl

theorem press_press_self (image : Fin 16 → Bool) (a : ℕ) (p q : Bool) :
    press (press image a p) a q = press image a q := by
  funext k
  unfold press
  split_ifs <;> rfl

/-! ## §2  One byte, applied -/

/-- `((pendant_keys)>>4)&0x0F`. -/
def buttonOf (keys : BitVec 8) : BitVec 8 := (keys >>> 4) &&& 0x0F

theorem buttonOf_toNat (keys : BitVec 8) : (buttonOf keys).toNat = highNibble keys := by
  have hk := keys.isLt
  rw [buttonOf, BitVec.toNat_and, BitVec.toNat_ushiftRight, Nat.shiftRight_eq_div_pow]
  show keys.toNat / 16 &&& (2 ^ 4 - 1) = highNibble keys
  rw [Nat.and_two_pow_sub_one_eq_mod, highNibble]
  omega

theorem buttonOf_lt (keys : BitVec 8) : (buttonOf keys).toNat < 16 := by
  rw [buttonOf_toNat]
  exact highNibble_lt keys

/-- The button that bit 0 of a half stands for. -/
def Half.first : Half → ℕ
  | .low => 0
  | .high => 8

theorem getLsbD_buttonMask {button : BitVec 8} (hb : button.toNat < 8) {j : ℕ} (hj : j < 8) :
    (buttonMask button).getLsbD j = decide (j ≠ button.toNat) := by
  unfold buttonMask
  generalize button.toNat = n at hb
  interval_cases n <;> interval_cases j <;> rfl

theorem getLsbD_newImage (image keys : BitVec 8) {button : BitVec 8} (hb : button.toNat < 8)
    {j : ℕ} (hj : j < 8) :
    (newImage image (buttonMask button) keys button).getLsbD j =
      if j = button.toNat then keys.getLsbD 0 else image.getLsbD j := by
  have hmask := getLsbD_buttonMask hb hj
  unfold newImage
  simp only [BitVec.getLsbD_setWidth, BitVec.getLsbD_or, BitVec.getLsbD_and,
    BitVec.getLsbD_shiftLeft, hmask, hj]
  rcases Nat.lt_trichotomy j button.toNat with hlt | heq | hgt
  · simp [hlt, hlt.ne, show j < 32 by omega]
  · simp [heq, show button.toNat < 32 by omega]
  · have hsub : j - button.toNat ≠ 0 := by omega
    simp [hgt.ne', hsub, show j < 32 by omega]

/-- The two halves of the image. -/
theorem pendantImage_eq (m : Main) (k : Fin 16) :
    pendantImage m k =
      if k.val < 8 then m.g.igpio2316.getLsbD k else m.g.igpio3124.getLsbD (k - 8) := by
  rw [pendantImage, BitVec.getLsbD_append]

/-- **Storing the new image applies the byte.** -/
theorem pendantImage_setIgpio (m : Main) (half : Half) {button : BitVec 8}
    (hlt : button.toNat < 8) (keys : BitVec 8) (pc : Pc) :
    pendantImage { m with
      g := m.g.setIgpio half (newImage (m.g.igpio half) (buttonMask button) keys button)
      pc := pc } =
    press (pendantImage m) (button.toNat + half.first) (keys.getLsbD 0) := by
  funext k
  have hk := k.isLt
  rw [press, pendantImage_eq, pendantImage_eq]
  cases half with
  | low =>
      show (if k.val < 8 then (newImage _ _ keys button).getLsbD k else m.g.igpio3124.getLsbD _) =
        if button.toNat = k then _ else _
      by_cases hlow : k.val < 8
      · simp only [hlow, if_true, getLsbD_newImage _ keys hlt hlow, Globals.igpio]
        by_cases hkb : k.val = button.toNat
        · rw [if_pos hkb, if_pos hkb.symm]
        · rw [if_neg hkb, if_neg (Ne.symm hkb)]
      · rw [if_neg hlow, if_neg hlow, if_neg (by omega)]
  | high =>
      show (if k.val < 8 then m.g.igpio2316.getLsbD k else (newImage _ _ keys button).getLsbD _) =
        if button.toNat + 8 = k then _ else _
      by_cases hlow : k.val < 8
      · rw [if_pos hlow, if_pos hlow, if_neg (by omega)]
      · rw [if_neg hlow, if_neg hlow, getLsbD_newImage _ keys hlt (by omega)]
        by_cases hkb : k.val - 8 = button.toNat
        · rw [if_pos hkb, if_pos (by omega)]
        · rw [if_neg hkb, if_neg (by omega)]
          rfl

/-! ## §3  The key branch -/

/-- The button the branch is going to set. -/
def KeyPc.inHand (m : Main) : KeyPc → ℕ
  | .clearPressed | .segsKeys | .buttonKeys => highNibble m.pendantKeys
  | .buttonStore keys => highNibble keys
  | .buttonTest | .lowerLoad => m.button.toNat
  | .lowerStore button => button.toNat
  | .maskLoad half | .maskStore half _ | .imageLoad half | .tempButLoad half _
  | .bitKeys half _ _ | .shiftLoad half _ _ _ => m.button.toNat + half.first
  | .imageStore half _ _ _ button => button.toNat + half.first

/-- The state it is going to set it to. -/
def KeyPc.stateInHand (m : Main) : KeyPc → Bool
  | .shiftLoad _ _ _ keys | .imageStore _ _ _ keys _ => keys.getLsbD 0
  | _ => m.pendantKeys.getLsbD 0

/-- What the branch knows at each of its accesses. -/
def KeyPc.Facts (m : Main) : KeyPc → Prop
  | .clearPressed => m.pendantPressed = 1
  | .segsKeys | .buttonKeys | .buttonStore _ => True
  | .buttonTest => m.button.toNat < 16
  | .lowerLoad => 7 < m.button.toNat ∧ m.button.toNat < 16
  | .lowerStore button => 7 < button.toNat ∧ button.toNat < 16
  | .maskLoad _ => m.button.toNat < 8
  | .maskStore _ button => m.button.toNat < 8 ∧ button = m.button
  | .imageLoad _ => m.button.toNat < 8 ∧ m.tempBut = buttonMask m.button
  | .tempButLoad half image =>
      m.button.toNat < 8 ∧ m.tempBut = buttonMask m.button ∧ image = m.g.igpio half
  | .bitKeys half image tempBut | .shiftLoad half image tempBut _ =>
      m.button.toNat < 8 ∧ tempBut = buttonMask m.button ∧ image = m.g.igpio half
  | .imageStore half image tempBut _ button =>
      button.toNat < 8 ∧ tempBut = buttonMask button ∧ image = m.g.igpio half

/-- The image when the branch is done. -/
def afterBranch (m : Main) : Fin 16 → Bool :=
  match m.pc with
  | .key .clearPressed => pendantImage m
  | .key k => press (pendantImage m) (k.inHand m) (k.stateInHand m)
  | _ => pendantImage m

/-- The image when the byte behind the flag has been handled too. -/
def imageToBe (m : Main) : Fin 16 → Bool :=
  if m.pendantPressed = 1 then
    press (afterBranch m) (highNibble m.pendantKeys) (m.pendantKeys.getLsbD 0)
  else afterBranch m

/-! ## §4  The invariant -/

/-- The image to be is what the bytes received say. -/
structure Inv (init : Fin 16 → Bool) (es : List Event) (m : Main) : Prop where
  facts : ∀ k, m.pc = .key k → k.Facts m
  image : imageToBe m = expectedImage init (receivedKeys es)

/-- The start of the loop, nothing waiting. -/
structure Idle (m : Main) : Prop where
  pc : m.pc = .pressedTest
  pressed : m.pendantPressed = 0

theorem Idle.inv {m : Main} (h : Idle m) : Inv (pendantImage m) [] m where
  facts k hk := by
    rw [h.pc] at hk
    exact Pc.noConfusion hk
  image := by
    rw [imageToBe, h.pressed, if_neg (by decide), afterBranch, h.pc]
    rfl

theorem receivedKeys_cons {e : Event} (h : e.key = none) (es : List Event) :
    receivedKeys (e :: es) = receivedKeys es := List.filterMap_cons_none h

/-- A step that leaves flag, byte and the image after the branch as they are has
to see to the facts only. -/
theorem Inv.of_same {init : Fin 16 → Bool} {es : List Event} {e : Event} {m m' : Main}
    (h : Inv init es m) (he : e.key = none)
    (hpressed : m'.pendantPressed = m.pendantPressed) (hkeys : m'.pendantKeys = m.pendantKeys)
    (hafter : afterBranch m' = afterBranch m) (hfacts : ∀ k, m'.pc = .key k → k.Facts m') :
    Inv init (e :: es) m' where
  facts := hfacts
  image := by
    rw [receivedKeys_cons he, ← h.image, imageToBe, imageToBe, hpressed, hkeys, hafter]

/-- **One access of the key branch.** -/
theorem Inv.keyStep {init : Fin 16 → Bool} {es : List Event} {m : Main} {k : KeyPc}
    (h : Inv init es m) (hpc : m.pc = .key k) : Inv init (.main :: es) (keyStep k m) := by
  have hfacts := h.facts k hpc
  have himage := h.image
  obtain ⟨pc, g, pressed, keys, button, tempBut, oldLeds, count, count2, seg7, tx⟩ := m
  obtain rfl : pc = .key k := hpc
  cases k with
  | clearPressed =>
      -- the byte behind the flag is now the one in hand
      obtain rfl : pressed = 1 := hfacts
      exact ⟨by rintro _ ⟨⟩; trivial, himage⟩
  | segsKeys => exact h.of_same rfl rfl rfl rfl (by rintro _ ⟨⟩; trivial)
  | buttonKeys => exact h.of_same rfl rfl rfl rfl (by rintro _ ⟨⟩; trivial)
  | buttonStore v =>
      refine h.of_same rfl rfl rfl ?_ (by rintro _ ⟨⟩; exact buttonOf_lt v)
      show press _ (buttonOf v).toNat _ = press _ (highNibble v) _
      rw [buttonOf_toNat]
      rfl
  | buttonTest =>
      have hlt : button.toNat < 16 := hfacts
      by_cases hlow : button ≤ 7
      · rw [HelloLed.keyStep, if_pos hlow]
        exact h.of_same rfl rfl rfl rfl
          (by rintro _ ⟨⟩; exact Nat.lt_succ_of_le (BitVec.le_def.mp hlow))
      · rw [HelloLed.keyStep, if_neg hlow]
        have hgt : 7 < button.toNat := Nat.not_le.mp fun hle => hlow (BitVec.le_def.mpr hle)
        exact h.of_same rfl rfl rfl rfl (by rintro _ ⟨⟩; exact ⟨hgt, hlt⟩)
  | lowerLoad => exact h.of_same rfl rfl rfl rfl (by rintro _ ⟨⟩; exact hfacts)
  | lowerStore b =>
      obtain ⟨hgt, hlt⟩ : 7 < b.toNat ∧ b.toNat < 16 := hfacts
      have hsub : (b - 8).toNat + 8 = b.toNat := by
        have height : (8 : BitVec 8).toNat = 8 := rfl
        rw [BitVec.toNat_sub, height]
        omega
      refine h.of_same rfl rfl rfl ?_ (by rintro _ ⟨⟩; show (b - 8).toNat < 8; omega)
      show press _ ((b - 8).toNat + 8) _ = press _ b.toNat _
      rw [hsub]
      rfl
  | maskLoad half => exact h.of_same rfl rfl rfl rfl (by rintro _ ⟨⟩; exact ⟨hfacts, rfl⟩)
  | maskStore half b =>
      obtain rfl : b = button := hfacts.2
      exact h.of_same rfl rfl rfl rfl (by rintro _ ⟨⟩; exact ⟨hfacts.1, rfl⟩)
  | imageLoad half =>
      exact h.of_same rfl rfl rfl rfl (by rintro _ ⟨⟩; exact ⟨hfacts.1, hfacts.2, rfl⟩)
  | tempButLoad half image => exact h.of_same rfl rfl rfl rfl (by rintro _ ⟨⟩; exact hfacts)
  | bitKeys half image tb => exact h.of_same rfl rfl rfl rfl (by rintro _ ⟨⟩; exact hfacts)
  | shiftLoad half image tb ks => exact h.of_same rfl rfl rfl rfl (by rintro _ ⟨⟩; exact hfacts)
  | imageStore half image tb ks b =>
      obtain ⟨hlt, rfl, rfl⟩ : b.toNat < 8 ∧ tb = buttonMask b ∧ image = g.igpio half := hfacts
      refine h.of_same rfl rfl rfl ?_ nofun
      exact pendantImage_setIgpio _ half hlt ks .countTest

/-- The rest of the loop leaves byte and image alone and enters the branch on a
raised flag only. -/
theorem mainStep_outside (m : Main) (hpc : ∀ k, m.pc ≠ .key k) :
    (mainStep m).pendantPressed = m.pendantPressed ∧
      (mainStep m).pendantKeys = m.pendantKeys ∧ afterBranch (mainStep m) = afterBranch m ∧
      ∀ k, (mainStep m).pc = .key k → k.Facts (mainStep m) := by
  obtain ⟨pc, g, pressed, keys, button, tempBut, oldLeds, count, count2, seg7, tx⟩ := m
  cases pc with
  | key k => exact absurd rfl (hpc k)
  | pressedTest =>
      by_cases hp : pressed = 1
      · obtain rfl := hp
        exact ⟨rfl, rfl, rfl, by rintro _ ⟨⟩; rfl⟩
      · simp only [mainStep, if_neg hp]
        exact ⟨trivial, trivial, rfl, nofun⟩
  | countTest =>
      by_cases hc : count % 1000 = 0
      · simp only [mainStep, if_pos hc]
        exact ⟨trivial, trivial, rfl, nofun⟩
      · simp only [mainStep, if_neg hc]
        exact ⟨trivial, trivial, rfl, nofun⟩
  | ledsOld v =>
      by_cases hv : v ≠ oldLeds
      · simp only [mainStep, if_pos hv]
        exact ⟨trivial, trivial, rfl, nofun⟩
      · simp only [mainStep, if_neg hv]
        exact ⟨trivial, trivial, rfl, nofun⟩
  | segsTxt | segsOut | ledsRxt | oldRxt | oldStore | sendRxt | send | countLoad | countStore =>
      exact ⟨rfl, rfl, rfl, nofun⟩

theorem Inv.mainStep {init : Fin 16 → Bool} {es : List Event} {m : Main} (h : Inv init es m) :
    Inv init (.main :: es) (mainStep m) := by
  by_cases hpc : ∃ k, m.pc = .key k
  · obtain ⟨k, hk⟩ := hpc
    have heq : HelloLed.mainStep m = HelloLed.keyStep k m := by rw [HelloLed.mainStep, hk]
    rw [heq]
    exact h.keyStep hk
  · obtain ⟨hpressed, hkeys, hafter, hfacts⟩ := mainStep_outside m fun k hk => hpc ⟨k, hk⟩
    exact h.of_same rfl hpressed hkeys hafter hfacts

/-- The ethernet handler reads the image and does not write it. -/
theorem igpio_of_ethernetInterrupts {g g' : Globals} {tr : List BusAccess}
    (h : Completes (ethernetInterrupts g) tr g') : g'.igpio = g.igpio := by
  obtain ⟨inter, ⟨-, -, rfl⟩ | ⟨-, r, -, t, -, hrest⟩⟩ := completes_ethernetInterrupts.mp h
  · rfl
  · obtain ⟨-, hlow, hhigh⟩ := afterReceive_keeps hrest
    funext half
    cases half with
    | low => exact hlow
    | high => exact hhigh

theorem Inv.ethernet {init : Fin 16 → Bool} {es : List Event} {m : Main} (h : Inv init es m)
    {tr : List BusAccess} {g' : Globals} (hrun : Completes (ethernetInterrupts m.g) tr g') :
    Inv init (.ethernet tr :: es) { m with g := g' } := by
  have higpio := igpio_of_ethernetInterrupts hrun
  have hlow : g'.igpio2316 = m.g.igpio2316 := congrFun higpio .low
  have hhigh : g'.igpio3124 = m.g.igpio3124 := congrFun higpio .high
  have himage : pendantImage { m with g := g' } = pendantImage m := by
    funext k
    rw [pendantImage_eq, pendantImage_eq]
    show (if k.val < 8 then g'.igpio2316.getLsbD k else g'.igpio3124.getLsbD _) = _
    rw [hlow, hhigh]
  refine h.of_same rfl rfl rfl ?_ ?_
  · obtain ⟨pc, g, pressed, keys, button, tempBut, oldLeds, count, count2, seg7, tx⟩ := m
    cases pc with
    | key k =>
        cases k with
        | clearPressed => exact himage
        | _ => exact congrArg (press · _ _) himage
    | _ => exact himage
  · intro k hk
    have hfacts := h.facts k hk
    cases k with
    | tempButLoad | bitKeys | shiftLoad | imageStore =>
        exact ⟨hfacts.1, hfacts.2.1, by rw [hfacts.2.2, higpio]⟩
    | _ => exact hfacts

/-! ## §5  Arrivals -/

/-- What `receiver_interupts` stores. -/
def Main.received (m : Main) (keys : BitVec 8) : Main :=
  { m with pendantKeys := keys, pendantPressed := 1 }

/-- **When a byte does no harm to the one being handled.** Up to the read that
decides on the button it must be about the same button, or the byte it replaces
must be one the image shows already; from there to the last read it must be
about the same button or have the same state. -/
def KeyPc.Takes (m : Main) (keys : BitVec 8) : KeyPc → Prop
  | .clearPressed | .shiftLoad .. | .imageStore .. => True
  | .segsKeys | .buttonKeys =>
      highNibble keys = highNibble m.pendantKeys ∨
        pendantImage m ⟨highNibble m.pendantKeys, highNibble_lt _⟩ = m.pendantKeys.getLsbD 0
  | k => highNibble keys = k.inHand m ∨ keys.getLsbD 0 = m.pendantKeys.getLsbD 0

/-- A byte that comes in when no byte is in hand does no harm. -/
def Takes (m : Main) (keys : BitVec 8) : Prop :=
  match m.pc with
  | .key k => k.Takes m keys
  | _ => True

theorem KeyPc.inHand_lt {m : Main} {k : KeyPc} (h : k.Facts m) : k.inHand m < 16 := by
  cases k with
  | clearPressed | segsKeys | buttonKeys | buttonStore => exact highNibble_lt _
  | buttonTest => exact h
  | lowerLoad | lowerStore => exact h.2
  | maskLoad half =>
      have hlt : m.button.toNat < 8 := h
      cases half <;> simp only [KeyPc.inHand, Half.first] <;> omega
  | maskStore half | imageLoad half | tempButLoad half | bitKeys half | shiftLoad half
  | imageStore half =>
      have hlt := h.1
      cases half <;> simp only [KeyPc.inHand, Half.first] <;> omega

/-- **The condition is exact**: a byte that finds the flag down is added to the
image to be if and only if it does no harm to the one being handled. -/
theorem imageToBe_received_iff {m : Main} (hfacts : ∀ k, m.pc = .key k → k.Facts m)
    (hpressed : m.pendantPressed = 0) (b : BitVec 8) :
    imageToBe (m.received b) = press (imageToBe m) (highNibble b) (b.getLsbD 0) ↔ Takes m b := by
  have himage : imageToBe m = afterBranch m := by rw [imageToBe, hpressed, if_neg (by decide)]
  rw [himage]
  show press (afterBranch (m.received b)) (highNibble b) (b.getLsbD 0) = _ ↔ _
  obtain ⟨pc, g, pressed, keys, button, tempBut, oldLeds, count, count2, seg7, tx⟩ := m
  obtain rfl : pressed = 0 := hpressed
  cases pc with
  | key k =>
      have hk := KeyPc.inHand_lt (hfacts k rfl)
      cases k with
      | clearPressed => exact absurd (hfacts _ rfl) (by decide : ¬ (0 : BitVec 8) = 1)
      | segsKeys | buttonKeys =>
          -- the byte in hand is replaced
          refine Iff.trans (Eq.congr_left ?_)
            (press_eq_press_press_iff _ ⟨_, highNibble_lt keys⟩ (keys.getLsbD 0) _ _)
          exact press_press_self ..
      | shiftLoad | imageStore => exact iff_of_true rfl trivial
      | _ =>
          -- the button has been read, the state has not
          exact press_press_eq_iff _ hk _ _ _ _
  | _ => exact iff_of_true rfl trivial

theorem Inv.received {init : Fin 16 → Bool} {es : List Event} {m : Main} (h : Inv init es m)
    {e : Event} {b : BitVec 8} (he : e.key = some b) (hpressed : m.pendantPressed = 0)
    (htakes : Takes m b) : Inv init (e :: es) (m.received b) where
  facts k hk := by
    have hfacts := h.facts k hk
    cases k with
    | clearPressed => rfl
    | _ => exact hfacts
  image := by
    rw [(imageToBe_received_iff h.facts hpressed b).mpr htakes, h.image, ← expectedImage_cons]
    exact congrArg (expectedImage init) (List.filterMap_cons_some he).symm

/-! ## §6  Runs -/

/-- A step in which a byte finds the one before picked up. -/
def PickedUpStep (m : Main) (e : Event) (m' : Main) : Prop :=
  Step m e m' ∧ (e.key ≠ none → m.pendantPressed = 0)

/-- A received byte does no harm to the one being handled. -/
def HarmlessEvent (m : Main) (e : Event) : Prop := ∀ b, e.key = some b → Takes m b

theorem Inv.step {init : Fin 16 → Bool} {es : List Event} {m m' : Main} {e : Event}
    (h : Inv init es m) (hstep : PickedUpStep m e m') (hharmless : HarmlessEvent m e) :
    Inv init (e :: es) m' := by
  obtain ⟨hstep, hpicked⟩ := hstep
  cases hstep with
  | main => exact h.mainStep
  | ethernet hrun => exact h.ethernet hrun
  | uart status rxdata =>
      by_cases hready : receiveReady status = true
      · have hkey : (Event.uart status rxdata).key = some (rxdata.setWidth 8) := if_pos hready
        have hpressed := hpicked (by rw [hkey]; exact Option.some_ne_none _)
        have heq : receiverInterupts status rxdata m = m.received (rxdata.setWidth 8) :=
          if_pos hready
        rw [heq]
        exact h.received hkey hpressed (hharmless _ hkey)
      · have hkey : (Event.uart status rxdata).key = none := if_neg hready
        have heq : receiverInterupts status rxdata m = m := if_neg hready
        rw [heq]
        exact h.of_same hkey rfl rfl rfl h.facts

/-- **The image of the pendant.** If every byte finds the one before picked up
and does no harm to the one being handled, then, outside the key branch and with
nothing waiting, each button is in the state of the last byte about it. -/
theorem pendantImage_of_harmless {m₀ m : Main} {es : List Event} (h₀ : Idle m₀)
    (hrun : Runs (fun m e m' => PickedUpStep m e m' ∧ HarmlessEvent m e) m₀ es m)
    (hpc : ∀ k, m.pc ≠ .key k) (hpressed : m.pendantPressed = 0) :
    pendantImage m = expectedImage (pendantImage m₀) (receivedKeys es) := by
  have hinv : Inv (pendantImage m₀) es m :=
    Runs.invariant h₀.inv (fun _ _ _ _ ih hstep => ih.step hstep.1 hstep.2) hrun
  rw [← hinv.image, imageToBe, hpressed, if_neg (by decide)]
  obtain ⟨pc, g, pressed, keys, button, tempBut, oldLeds, count, count2, seg7, tx⟩ := m
  cases pc with
  | key k => exact absurd rfl (hpc k)
  | _ => rfl

/-- The loop at its start. -/
def Main.start : Main where
  pc := .pressedTest
  g := .init
  pendantPressed := 0
  pendantKeys := 0
  button := 0
  tempBut := 0
  oldPendantLeds := 0
  count := 0
  count2 := 0
  seg7Display := 0
  uartTx := []

theorem Main.idle_start : Idle .start := ⟨rfl, rfl⟩

/-- An event other than a run of the ethernet handler, carried out. -/
def Event.run : Event → Main → Main
  | .main, m => mainStep m
  | .uart status rxdata, m => receiverInterupts status rxdata m
  | .ethernet _, m => m

/-- An event that `Event.run` carries out, and the byte before is picked up. -/
def Event.pickedUp (e : Event) (m : Main) : Bool :=
  match e with
  | .main => true
  | .uart .. => m.pendantPressed == 0
  | .ethernet _ => false

theorem Event.pickedUpStep {e : Event} {m : Main} (h : e.pickedUp m = true) :
    PickedUpStep m e (e.run m) := by
  cases e with
  | main => exact ⟨.main m, fun hkey => absurd rfl hkey⟩
  | uart status rxdata => exact ⟨.uart m status rxdata, fun _ => eq_of_beq h⟩
  | ethernet tr => exact absurd h Bool.false_ne_true

/-- A byte found at the start of the loop body does no harm. -/
theorem Event.harmless {e : Event} {m : Main}
    (h : (e.key.isNone || m.pc == .pressedTest) = true) : HarmlessEvent m e := by
  intro b hb
  rw [hb, Option.isNone_some, Bool.false_or] at h
  rw [Takes, eq_of_beq h]
  trivial

/-- Button 1 goes down, and the loop picks it up. -/
def button1Down : List Event := List.replicate 13 .main ++ [.uart 0x80 0x11]

theorem pendantImage_of_button1Down :
    pendantImage (button1Down.foldr Event.run .start) =
      expectedImage (pendantImage .start) [0x11] := by
  have hrun : Runs (fun m e m' => PickedUpStep m e m' ∧ HarmlessEvent m e) .start button1Down
      (button1Down.foldr Event.run .start) := by
    refine Runs.of_checked Event.run
      (fun e m => e.pickedUp m && (e.key.isNone || m.pc == .pressedTest)) ?_ (by decide)
    intro e m hok
    obtain ⟨hpicked, hpc⟩ := Bool.and_eq_true_iff.mp hok
    exact ⟨Event.pickedUpStep hpicked, Event.harmless hpc⟩
  have hpc : (button1Down.foldr Event.run .start).pc = .countTest := by decide
  refine pendantImage_of_harmless Main.idle_start hrun ?_ (by decide)
  rw [hpc]
  nofun

/-- Button 1 goes down. Button 2 comes up after the loop has read which button
`0x11` is about and before it reads which state it is in. -/
def button2UpBetween : List Event :=
  List.replicate 29 .main ++ (.uart 0x80 0x20 :: (List.replicate 4 .main ++ [.uart 0x80 0x11]))

/-- **Button 1 is down and its bit is clear.** -/
theorem button1_lost :
    ∃ m, Runs PickedUpStep .start button2UpBetween m ∧ m.pc = .countTest ∧
      m.pendantPressed = 0 ∧
      expectedImage (pendantImage .start) (receivedKeys button2UpBetween) 1 = true ∧
      pendantImage m 1 = false :=
  ⟨button2UpBetween.foldr Event.run .start,
    Runs.of_checked Event.run Event.pickedUp (fun _ _ => Event.pickedUpStep) (by decide),
    by decide, by decide, by decide, by decide⟩

end FpgaCnc.HelloLed
