import OsLab.Chmod
import OsLab.Lib.Words
import Mathlib.Data.List.TakeWhile

/-!
# The modes that custom_chmod accepts

`parse_mode` accepts what `strtol` converts as a whole to a number in range (`parseMode_accepted`), and with it white space and a sign in
front of the digits. So it accepts exactly the octal modes except for the texts that have such a front (`parse_mode_exact_iff`).
-/

namespace OsLab.Posix

/-- An octal mode as the usage has it: octal digits and nothing else, for a number up to 07777. -/
def OctalMode (s : Bytes) : Prop := s ≠ [] ∧ (∀ b ∈ s, isOctal b = true) ∧ octalValue s ≤ 0o7777

instance (s : Bytes) : Decidable (OctalMode s) := inferInstanceAs (Decidable (_ ∧ _ ∧ _))

/-- What `parse_mode` is to do: accept the octal modes, and leave `*mode` alone with anything else. -/
def octalModeOr (s : Bytes) (mode : Nat) : Int × Nat := if OctalMode s then (0, octalValue s) else (-1, mode)

/-- White space or a sign, or both, in front of the digits of a number from 0 to 07777. -/
def Fronted (s : Bytes) : Prop :=
  ∃ blanks sign digits, Subject s blanks sign digits [] ∧ blanks ++ sign ≠ [] ∧
    0 ≤ signedValue sign digits ∧ signedValue sign digits ≤ 0o7777

namespace ChmodAux

variable {s blanks sign digits rest : Bytes} {strtol : Strtol} {mode : Nat}

theorem isOctal_of_isSpace {b : UInt8} (h : isSpace b = true) : isOctal b = false := by
  simp only [isSpace, isOctal, Bool.or_eq_true, Bool.and_eq_true, beq_iff_eq, decide_eq_true_eq, Bool.and_eq_false_iff,
    decide_eq_false_iff_not, UInt8.le_iff_toNat_le, ← UInt8.toNat_inj] at h ⊢
  simp only [UInt8.reduceToNat] at h ⊢
  omega

/-- A byte of the front is no digit. -/
theorem isOctal_of_mem_front (h : Subject s blanks sign digits rest) {b : UInt8} (hb : b ∈ blanks ++ sign) : isOctal b = false := by
  rcases List.mem_append.mp hb with hb | hb
  · exact isOctal_of_isSpace (h.blanks_space b hb)
  · rcases h.sign_cases with rfl | rfl | rfl
    · cases hb
    · rw [List.mem_singleton.mp hb]
      rfl
    · rw [List.mem_singleton.mp hb]
      rfl

/-- In a text of digits the parts are the digits alone. -/
theorem octal_of_subject (h : Subject s blanks sign digits rest) (hs : ∀ b ∈ s, isOctal b = true) :
    blanks ++ sign = [] ∧ digits = s ∧ rest = [] := by
  have hfront : blanks ++ sign = [] := by
    refine List.eq_nil_iff_forall_not_mem.mpr fun b hb => ?_
    have hyes : isOctal b = true := hs b (by rw [h.text]; simp only [List.mem_append] at hb ⊢; tauto)
    rw [isOctal_of_mem_front h hb] at hyes
    cases hyes
  have hrest : rest = [] := by
    cases hr : rest with
    | nil => rfl
    | cons b bs =>
      have hyes : isOctal b = true := hs b (by rw [h.text, hr]; simp)
      rw [h.rest_head b (by rw [hr]; rfl)] at hyes
      cases hyes
  refine ⟨hfront, ?_, hrest⟩
  rw [h.text, hfront, hrest, List.nil_append, List.append_nil]

/-- A text of digits is one that can be converted. -/
theorem subject_of_octal (hne : s ≠ []) (hs : ∀ b ∈ s, isOctal b = true) : Subject s [] [] s [] where
  text := by rw [List.nil_append, List.nil_append, List.append_nil]
  blanks_space b hb := absurd hb List.not_mem_nil
  sign_cases := .inl rfl
  digits_ne_nil := hne
  digits_octal := hs
  rest_head b hb := by cases hb

theorem signedValue_nil : signedValue [] digits = octalValue digits := if_neg nofun

/-- The first byte behind the white space is none. -/
theorem head_not_space (h : Subject s blanks sign digits rest) : ∀ b ∈ (sign ++ digits ++ rest).head?, isSpace b = false := by
  intro b hb
  rcases h.sign_cases with rfl | rfl | rfl
  · obtain ⟨d, ds, rfl⟩ := List.exists_cons_of_ne_nil h.digits_ne_nil
    have hoct := h.digits_octal d List.mem_cons_self
    obtain rfl : d = b := by simpa using hb
    by_contra hspace
    rw [isOctal_of_isSpace (by simpa using hspace)] at hoct
    cases hoct
  · obtain rfl : (43 : UInt8) = b := by simpa using hb
    rfl
  · obtain rfl : (45 : UInt8) = b := by simpa using hb
    rfl

theorem signOf_append (h : Subject s blanks sign digits rest) : signOf (sign ++ digits ++ rest) = sign := by
  rcases h.sign_cases with rfl | rfl | rfl
  · obtain ⟨d, ds, rfl⟩ := List.exists_cons_of_ne_nil h.digits_ne_nil
    have hoct := h.digits_octal d List.mem_cons_self
    have hplus : d ≠ 43 := fun hd => absurd (hd ▸ hoct) (by decide)
    have hminus : d ≠ 45 := fun hd => absurd (hd ▸ hoct) (by decide)
    simp [signOf, hplus, hminus]
  · rfl
  · rfl

/-- Where the sign and the digits are does not depend on how a text is taken apart. -/
theorem subject_unique {blanks' sign' digits' rest' : Bytes} (h : Subject s blanks sign digits rest)
    (h' : Subject s blanks' sign' digits' rest') : blanks = blanks' ∧ sign = sign' ∧ digits = digits' ∧ rest = rest' := by
  have htext : blanks ++ (sign ++ digits ++ rest) = blanks' ++ (sign' ++ digits' ++ rest') := by
    have hs := h.text.symm.trans h'.text
    simpa only [List.append_assoc] using hs
  have hblanks : blanks = blanks' := by
    rw [← takeWhile_append_stop h.blanks_space (head_not_space h), htext, takeWhile_append_stop h'.blanks_space (head_not_space h')]
  subst hblanks
  have htail := List.append_cancel_left htext
  have hsign : sign = sign' := by rw [← signOf_append h, htail, signOf_append h']
  subst hsign
  rw [List.append_assoc, List.append_assoc] at htail
  have hdr := List.append_cancel_left htail
  have hdigits : digits = digits' := by
    rw [← takeWhile_append_stop h.digits_octal h.rest_head, hdr, takeWhile_append_stop h'.digits_octal h'.rest_head]
  subst hdigits
  exact ⟨rfl, rfl, rfl, List.append_cancel_left hdr⟩

theorem signOf_append_drop (t : Bytes) : signOf t ++ t.drop (signOf t).length = t := by
  unfold signOf
  split
  · rename_i h
    obtain ⟨u, rfl⟩ := List.head?_eq_some_iff.mp h
    rfl
  · split
    · rename_i h
      obtain ⟨u, rfl⟩ := List.head?_eq_some_iff.mp h
      rfl
    · rfl

theorem signOf_cases (t : Bytes) : signOf t = [] ∨ signOf t = [43] ∨ signOf t = [45] := by
  unfold signOf
  split
  · exact .inr (.inl rfl)
  · split
    · exact .inr (.inr rfl)
    · exact .inl rfl

/-- The implementation finds the digits, if there are any. -/
theorem digits_of_subject (h : Subject s blanks sign digits rest) :
    ((s.dropWhile isSpace).drop (signOf (s.dropWhile isSpace)).length).takeWhile isOctal = digits := by
  have hdrop : s.dropWhile isSpace = sign ++ digits ++ rest := by
    rw [h.text, List.append_assoc, List.append_assoc, dropWhile_append_stop h.blanks_space, List.append_assoc]
    rw [← List.append_assoc]
    exact head_not_space h
  rw [hdrop, signOf_append h, List.append_assoc, List.drop_left, takeWhile_append_stop h.digits_octal h.rest_head]

theorem strtolOctal_std (s : Bytes) : StrtolStd s (strtolOctal s) := by
  unfold strtolOctal
  by_cases hd : ((s.dropWhile isSpace).drop (signOf (s.dropWhile isSpace)).length).takeWhile isOctal = []
  · simp only [if_pos hd]
    exact .nothing (fun _ _ _ _ h => h.digits_ne_nil ((digits_of_subject h).symm.trans hd)) 0
  · have h : Subject s (s.takeWhile isSpace) (signOf (s.dropWhile isSpace))
        (((s.dropWhile isSpace).drop (signOf (s.dropWhile isSpace)).length).takeWhile isOctal)
        (((s.dropWhile isSpace).drop (signOf (s.dropWhile isSpace)).length).dropWhile isOctal) := by
      refine ⟨?_, fun b hb => List.mem_takeWhile_imp hb, signOf_cases _, hd, fun b hb => List.mem_takeWhile_imp hb,
        head?_dropWhile_eq_false _⟩
      rw [List.append_assoc, List.takeWhile_append_dropWhile, List.append_assoc, signOf_append_drop, List.takeWhile_append_dropWhile]
    simp only [if_neg hd]
    split
    · exact .overflows h (by assumption)
    · split
      · exact .underflows h (by assumption)
      · exact .converts h (by omega) (by omega)

/-- What `strtol` makes of a text whose parts are known. -/
theorem run_of_subject (h : Subject s blanks sign digits rest) (hmin : LONG_MIN ≤ signedValue sign digits)
    (hmax : signedValue sign digits ≤ LONG_MAX) :
    strtol.run s = ⟨signedValue sign digits, (blanks ++ sign ++ digits).length, 0⟩ := by
  generalize hr : strtol.run s = r
  have hstd := strtol.std s
  rw [hr] at hstd
  cases hstd with
  | converts h' =>
    obtain ⟨rfl, rfl, rfl, -⟩ := subject_unique h h'
    rfl
  | overflows h' hover | underflows h' hunder =>
    obtain ⟨rfl, rfl, rfl, -⟩ := subject_unique h h'
    omega
  | nothing h' => exact absurd h (h' _ _ _ _)

/-- What `parse_mode` accepts. -/
theorem parseMode_accepted (h : Subject s blanks sign digits []) (hmin : 0 ≤ signedValue sign digits)
    (hmax : signedValue sign digits ≤ 0o7777) : parseMode strtol (some s) mode = (0, (signedValue sign digits).toNat) := by
  have hrun : strtol.run s = _ := run_of_subject h (Int.le_trans (by decide) hmin) (Int.le_trans hmax (by decide))
  have hne : s ≠ [] := by
    rw [h.text]
    simp [h.digits_ne_nil]
  have hlen : (blanks ++ sign ++ digits).length = s.length := by rw [h.text, List.append_nil]
  simp only [parseMode, if_neg hne, hrun]
  rw [hlen, if_neg (by simp), if_neg (by omega)]

/-- What `parse_mode` does not refuse has such parts. -/
theorem parseMode_cases (strtol : Strtol) (s : Bytes) (mode : Nat) :
    parseMode strtol (some s) mode = (-1, mode) ∨
      ∃ blanks sign digits, Subject s blanks sign digits [] ∧ 0 ≤ signedValue sign digits ∧ signedValue sign digits ≤ 0o7777 := by
  by_cases hne : s = []
  · exact .inl (if_pos hne)
  simp only [parseMode, if_neg hne]
  split
  · exact .inl rfl
  · rename_i hgood
    split
    · exact .inl rfl
    · rename_i hrange
      have hstd := strtol.std s
      generalize strtol.run s = r at hstd hgood hrange
      refine .inr ?_
      cases hstd with
      | @converts blanks sign digits rest h =>
        have hrest : rest = [] := by
          have hlen := congrArg List.length h.text
          simp only [List.length_append, ne_eq, not_or, not_not] at hlen hgood
          exact List.eq_nil_of_length_eq_zero (by omega)
        subst hrest
        exact ⟨blanks, sign, digits, h, by simp only at hrange; omega, by simp only at hrange; omega⟩
      | overflows | underflows => exact absurd (.inl nofun) hgood
      | nothing => exact absurd (.inr fun h0 => hne (List.eq_nil_of_length_eq_zero h0.symm)) hgood

end ChmodAux

open ChmodAux

/-- For every text and every `strtol` of the C standard: `parse_mode` accepts it exactly if it is an octal mode, stores its value,
and leaves
`*mode` alone otherwise, if and only if the text is none with white space or a sign in front of such a mode. -/
theorem parse_mode_exact_iff (strtol : Strtol) (s : Bytes) :
    (∀ mode, parseMode strtol (some s) mode = octalModeOr s mode) ↔ ¬ Fronted s := by
  constructor
  · rintro hall ⟨blanks, sign, digits, h, hfront, hmin, hmax⟩
    have heq := hall 0
    rw [parseMode_accepted h hmin hmax, octalModeOr, if_neg] at heq
    · exact absurd (Prod.mk.inj heq).1 (by decide)
    · exact fun hmode => hfront (octal_of_subject h hmode.2.1).1
  · intro hno mode
    by_cases hmode : OctalMode s
    · have h := subject_of_octal hmode.1 hmode.2.1
      have hval : signedValue [] s = (octalValue s : Int) := signedValue_nil
      have hle := hmode.2.2
      rw [parseMode_accepted h (by omega) (by omega), octalModeOr, if_pos hmode, hval, Int.toNat_natCast]
    · rw [octalModeOr, if_neg hmode]
      rcases parseMode_cases strtol s mode with hrefuse | ⟨blanks, sign, digits, h, hmin, hmax⟩
      · exact hrefuse
      · -- without a front the text is an octal mode
        by_cases hfront : blanks ++ sign = []
        · obtain ⟨rfl, rfl⟩ := List.append_eq_nil_iff.mp hfront
          refine absurd ⟨?_, ?_, ?_⟩ hmode
          · rw [h.text]
            simpa using h.digits_ne_nil
          · rw [h.text]
            simpa using h.digits_octal
          · rw [signedValue_nil] at hmax
            rw [h.text, List.nil_append, List.nil_append, List.append_nil]
            omega
        · exact absurd ⟨blanks, sign, digits, h, hfront, hmin, hmax⟩ hno

/-- A `strtol` of the C standard. -/
def strtolC : Strtol := ⟨strtolOctal, strtolOctal_std⟩

/-- The text " +644" is accepted as the mode 0644, and so is "-0" as the mode 0. -/
theorem parse_mode_takes_sign :
    ¬ OctalMode (ascii " +644") ∧ parseMode strtolC (some (ascii " +644")) 0 = (0, 0o644) ∧
      ¬ OctalMode (ascii "-0") ∧ parseMode strtolC (some (ascii "-0")) 0o755 = (0, 0) := by
  decide +kernel

end OsLab.Posix
