import OsLab.CText
import OsLab.Lib.Records

/-!
# Lines

A text and its lines, and what the functions of the C library make of them: `fgets` hands over the records that end at a newline or when
the buffer is full.
-/

namespace OsLab.Posix

/-- A line ends with a newline. -/
def endsLine (r : Bytes) : Bool := r.getLast? == some NL

/-- The lines of a text, with their newlines. -/
def lines (c : Bytes) : List Bytes := records endsLine c

namespace LinesAux

variable {bs c cur l : Bytes} {k n : Nat} {rest : Bytes}

/-- A string ends at its first zero. -/
theorem cstr_append_zero (h : (0 : UInt8) ∉ bs) : cstr (bs ++ 0 :: rest) = bs := by
  unfold cstr
  rw [List.takeWhile_append_of_pos]
  · simp
  · intro b hb
    simpa using fun h0 : b = 0 => h (h0 ▸ hb)

theorem cstr_of_not_mem (h : (0 : UInt8) ∉ bs) : cstr bs = bs := by
  rw [← List.append_nil bs, cstr, List.takeWhile_append_of_pos]
  · rfl
  · intro b hb
    simpa using fun h0 : b = 0 => h (h0 ▸ hb)

theorem cstr_append_of_mem {a b : Bytes} (h : (0 : UInt8) ∈ a) : cstr (a ++ b) = cstr a := by
  unfold cstr
  induction a with
  | nil => cases h
  | cons x xs ih =>
    by_cases hx : x = 0
    · simp [hx]
    · have htail := ih ((List.mem_cons.mp h).resolve_left fun h0 => hx h0.symm)
      rw [List.cons_append, List.takeWhile_cons_of_pos (by simpa using hx), List.takeWhile_cons_of_pos (by simpa using hx), htail]

@[simp] theorem endsLine_append (b : UInt8) : endsLine (cur ++ [b]) = (b == NL) := by simp [endsLine]

/-- The newline of a line is its last byte. -/
theorem not_mem_take_of_mem_lines (hl : l ∈ lines c) (hk : k < l.length) : NL ∉ l.take k := by
  intro hmem
  obtain ⟨j, hj, hnl⟩ := List.mem_iff_getElem.mp hmem
  rw [List.length_take] at hj
  have hends := ends_take_of_mem_records rfl hl (show j + 1 < l.length by omega)
  rw [List.take_add_one, List.getElem?_eq_getElem (by omega), Option.toList_some, endsLine_append] at hends
  rw [List.getElem_take] at hnl
  simp [hnl] at hends

/-- Bytes without a newline go on with the line. -/
theorem recordsFrom_endsLine_append (h : NL ∉ bs) : recordsFrom endsLine cur (bs ++ rest) = recordsFrom endsLine (cur ++ bs) rest := by
  induction bs generalizing cur with
  | nil => rw [List.nil_append, List.append_nil]
  | cons b bs ih =>
    have hb : b ≠ NL := fun hb => h (hb ▸ List.mem_cons_self)
    rw [List.cons_append, recordsFrom_goes (by simp [hb]), ih fun hmem => h (List.mem_cons_of_mem _ hmem), List.append_assoc,
      List.singleton_append]

theorem lines_of_not_mem (h : NL ∉ c) (hne : c ≠ []) : lines c = [c] := by
  have hgoes : recordsFrom endsLine [] (c ++ []) = recordsFrom endsLine ([] ++ c) [] := recordsFrom_endsLine_append h
  rw [List.append_nil, List.nil_append] at hgoes
  exact hgoes.trans (recordsFrom_nil hne)

/-- The first newline ends the first line. -/
theorem lines_append (h : NL ∉ bs) : lines (bs ++ NL :: rest) = (bs ++ [NL]) :: lines rest := by
  unfold lines records
  rw [recordsFrom_endsLine_append h, List.nil_append, recordsFrom_ends (by simp)]

/-- Induction over the lines of a text: there is none, the last one has no newline, or there is a line with its newline first. -/
@[elab_as_elim] theorem lines_induction {P : Bytes → Prop} (nil : P []) (last : ∀ c, c ≠ [] → NL ∉ c → P c)
    (line : ∀ u rest, NL ∉ u → P rest → P (u ++ NL :: rest)) (c : Bytes) : P c := by
  induction hm : c.length using Nat.strong_induction_on generalizing c with
  | _ m ih =>
  by_cases hnl : NL ∈ c
  · obtain ⟨u, rest, rfl, hu⟩ := List.eq_append_cons_of_mem hnl
    refine line u rest hu (ih rest.length ?_ rest rfl)
    rw [← hm, List.length_append, List.length_cons]
    omega
  · by_cases hne : c = []
    · rw [hne]
      exact nil
    · exact last c hne hnl

/-- A newline ends a record also where their length is limited. -/
theorem recordsFrom_endsBy_newline (n : Nat) (u rest : Bytes) :
    recordsFrom (endsBy endsLine n) cur (u ++ NL :: rest) =
      recordsFrom (endsBy endsLine n) cur (u ++ [NL]) ++ records (endsBy endsLine n) rest := by
  induction u generalizing cur with
  | nil =>
    have hends : endsBy endsLine n (cur ++ [NL]) = true := by simp [endsBy]
    rw [List.nil_append, List.nil_append, recordsFrom_ends hends, recordsFrom_ends hends]
    rfl
  | cons b u ih =>
    rw [List.cons_append, List.cons_append]
    cases hends : endsBy endsLine n (cur ++ [b]) with
    | true => rw [recordsFrom_ends hends, recordsFrom_ends hends, ih, List.cons_append]
    | false => rw [recordsFrom_goes hends, recordsFrom_goes hends, ih]

/-- What a reader with a buffer sees of a text is what it sees of each line. -/
theorem records_endsBy_eq_flatMap (n : Nat) (c : Bytes) :
    records (endsBy endsLine n) c = (lines c).flatMap (records (endsBy endsLine n)) := by
  induction c using lines_induction with
  | nil => rfl
  | last c hne hnl => rw [lines_of_not_mem hnl hne, List.flatMap_singleton]
  | line u rest hu ih =>
    rw [lines_append hu, List.flatMap_cons, ← ih]
    exact recordsFrom_endsBy_newline n u rest

theorem takeLine_append (h : NL ∉ bs) : takeLine (bs.length + n) (bs ++ rest) = bs ++ takeLine n rest := by
  induction bs with
  | nil => rw [List.length_nil, Nat.zero_add, List.nil_append, List.nil_append]
  | cons b bs ih =>
    have hb : b ≠ NL := fun hb => h (hb ▸ List.mem_cons_self)
    rw [List.cons_append, List.length_cons, Nat.add_right_comm, takeLine, if_neg hb, ih fun hmem => h (List.mem_cons_of_mem _ hmem),
      List.cons_append]

/-- `fgets` takes the first record, also when a part of it has been read. -/
theorem recordsFrom_takeLine (hcur : cur.length < n) (hl : l ≠ []) :
    recordsFrom (endsBy endsLine n) cur l =
      (cur ++ takeLine (n - cur.length) l) :: records (endsBy endsLine n) (l.drop (takeLine (n - cur.length) l).length) := by
  induction l generalizing cur with
  | nil => exact absurd rfl hl
  | cons b bs ih =>
    obtain ⟨m, hm⟩ : ∃ m, n - cur.length = m + 1 := ⟨n - cur.length - 1, by omega⟩
    rw [hm]
    unfold takeLine
    by_cases hb : b = NL
    · rw [if_pos hb, recordsFrom_ends (by simp [endsBy, hb])]
      rfl
    · rw [if_neg hb]
      by_cases hfull : cur.length + 1 = n
      · have hm0 : m = 0 := by omega
        subst hm0
        rw [recordsFrom_ends (by simp [endsBy, hfull])]
        rfl
      · rw [recordsFrom_goes (by simp [endsBy, hb, hfull])]
        cases bs with
        | nil =>
          rw [recordsFrom_nil (by simp)]
          cases m <;> rfl
        | cons b' bs =>
          have hm' : n - (cur ++ [b]).length = m := by
            rw [List.length_append, List.length_singleton]
            omega
          rw [ih (by rw [List.length_append, List.length_singleton]; omega) (fun he => by cases he), hm', List.append_assoc]
          rfl

/-- `fgets` with a buffer of `size` bytes goes through the records of at most `size - 1` bytes. -/
theorem records_of_fgets {size : Nat} {line rest' : Bytes} (hsize : 1 < size) (h : fgets size l = some (line, rest')) :
    records (endsBy endsLine (size - 1)) l = line :: records (endsBy endsLine (size - 1)) rest' ∧ rest'.length < l.length := by
  unfold fgets at h
  split at h
  · cases h
  · rename_i hne
    obtain ⟨rfl, rfl⟩ : takeLine (size - 1) l = line ∧ l.drop (takeLine (size - 1) l).length = rest' := by simpa using h
    refine ⟨recordsFrom_takeLine (by rw [List.length_nil]; omega) hne, ?_⟩
    obtain ⟨b, bs, rfl⟩ := List.exists_cons_of_ne_nil hne
    obtain ⟨m, hm⟩ : ∃ m, size - 1 = m + 1 := ⟨size - 2, by omega⟩
    rw [hm, List.length_drop]
    have hpos : 0 < (takeLine (m + 1) (b :: bs)).length := by
      unfold takeLine
      split <;> simp
    simp only [List.length_cons]
    omega

end LinesAux

end OsLab.Posix
