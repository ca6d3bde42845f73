import OsLab.Lib.Run
import Mathlib.Data.List.Perm.Basic

/-!
# Boxes of messages taken by kind

Any number of boxes, each open or not. A message of any kind is put at the end of an open box, and a receiver takes the first
message of the kind it wants, or the first message whatever its kind. A box keeps the record of what has been put into it and
of what has been taken out of it.

Nothing is lost, duplicated or invented, and the messages of one kind leave in the order in which they came: for each kind,
what was sent is what was taken followed by what is still there (`Mail.kept_of_reachable`).
-/

namespace OsLab

/-- A box: the messages in it, first to leave first, and those that have ever been put into it and taken out of it. -/
@[ext] structure Box (M : Type*) where
  queued : List M
  sent : List M
  taken : List M

/-- The open boxes. -/
abbrev Mail (ι M : Type*) := ι → Option (Box M)

/-- What happens to a box. A receiver that wants no kind in particular takes any message. -/
inductive MailAct (ι K M : Type*) where
  | opens (i : ι)
  | send (i : ι) (m : M)
  | take (i : ι) (want : Option K) (m : M)
  | closes (i : ι)

section

variable {ι K M : Type*} [DecidableEq ι] [DecidableEq K] (kind : M → K) {want : Option K} {m : M}

/-- The message is one that the receiver wants. -/
def wants (want : Option K) (m : M) : Bool :=
  match want with
  | none => true
  | some k => decide (kind m = k)

/-- A message is put at the end. -/
def Box.put (b : Box M) (m : M) : Box M := { b with queued := b.queued ++ [m], sent := b.sent ++ [m] }

/-- The first message that is wanted is taken out. -/
def Box.take (b : Box M) (want : Option K) (m : M) : Box M :=
  { b with queued := b.queued.eraseP (wants kind want), taken := b.taken ++ [m] }

/-- One step: a message can be taken when it is the first one wanted. -/
def Mail.step [DecidableEq M] (s : Mail ι M) : MailAct ι K M → Option (Mail ι M)
  | .opens i => if s i = none then some (Function.update s i (some ⟨[], [], []⟩)) else none
  | .send i m => (s i).map fun b => Function.update s i (some (b.put m))
  | .take i want m =>
    (s i).bind fun b =>
      if b.queued.find? (wants kind want) = some m then some (Function.update s i (some (b.take kind want m))) else none
  | .closes i => some (Function.update s i none)

/-- The boxes, from none open. -/
def Mail.sys [DecidableEq M] : Sys (Mail ι M) (MailAct ι K M) where
  init s := s = fun _ => none
  step := Mail.step kind

/-- For each kind, the messages sent are those taken and then those still there, in this order; and over all kinds no message
is there or taken more often than it was sent, and none is missing. -/
structure Box.Kept (b : Box M) : Prop where
  order : ∀ k, b.sent.filter (kind · = k) = b.taken.filter (kind · = k) ++ b.queued.filter (kind · = k)
  perm : b.sent.Perm (b.taken ++ b.queued)

variable {kind} {b : Box M}

theorem Box.Kept.put (hb : b.Kept kind) (m : M) : (b.put m).Kept kind where
  order k := by simp only [Box.put, List.filter_append, hb.order k, List.append_assoc]
  perm := by
    simp only [Box.put, ← List.append_assoc]
    exact hb.perm.append_right [m]

/-- A list cut at the first message wanted, and without it. -/
theorem find?_wants_split {l : List M} (hm : l.find? (wants kind want) = some m) :
    ∃ l₁ l₂, l = l₁ ++ m :: l₂ ∧ (∀ x ∈ l₁, ¬wants kind want x) ∧ l.eraseP (wants kind want) = l₁ ++ l₂ := by
  obtain ⟨hw, l₁, l₂, rfl, hnot⟩ := List.find?_eq_some_iff_append.mp hm
  have hnot' : ∀ x ∈ l₁, ¬wants kind want x := by simpa using hnot
  exact ⟨l₁, l₂, rfl, hnot', by rw [List.eraseP_append_right _ hnot', List.eraseP_cons_of_pos hw]⟩

/-- The first message wanted is the first of its own kind: those before it are not wanted, and if any kind is wanted there
are none before it. -/
theorem filter_of_find? {l : List M} (hm : l.find? (wants kind want) = some m) (k : K) :
    l.filter (kind · = k) = [m].filter (kind · = k) ++ (l.eraseP (wants kind want)).filter (kind · = k) := by
  have hw := List.find?_some hm
  obtain ⟨l₁, l₂, rfl, hnot, herase⟩ := find?_wants_split hm
  rw [herase]
  by_cases hk : kind m = k
  · have hnone : l₁.filter (kind · = k) = [] := by
      refine List.filter_eq_nil_iff.mpr fun x hx hxk => hnot x hx ?_
      cases want with
      | none => rfl
      | some k' => simp_all [wants]
    simp [List.filter_append, hnone, hk]
  · simp [List.filter_append, hk]

theorem Box.Kept.take (hb : b.Kept kind) (hm : b.queued.find? (wants kind want) = some m) : (b.take kind want m).Kept kind where
  order k := by
    simp only [Box.take, List.filter_append, List.append_assoc]
    rw [hb.order k, filter_of_find? hm k]
  perm := by
    obtain ⟨l₁, l₂, hl, -, herase⟩ := find?_wants_split hm
    have hp : b.queued.Perm (m :: b.queued.eraseP (wants kind want)) := by
      rw [herase, hl]
      exact List.perm_middle
    simp only [Box.take, List.append_assoc, List.singleton_append]
    exact hb.perm.trans (hp.append_left b.taken)

variable [DecidableEq M] {s s' : Mail ι M}

/-- The box that a step touches, and what becomes of it. -/
theorem Mail.step_cases {a : MailAct ι K M} (h : Mail.step kind s a = some s') :
    ∃ i o, s' = Function.update s i o ∧ (o = none ∨ o = some ⟨[], [], []⟩ ∨ ∃ b, s i = some b ∧
      ((∃ m, o = some (b.put m)) ∨
        ∃ want m, b.queued.find? (wants kind want) = some m ∧ o = some (b.take kind want m))) := by
  cases a with
  | opens i =>
    simp only [step, Option.ite_none_right_eq_some, Option.some.injEq] at h
    exact ⟨i, _, h.2.symm, .inr (.inl rfl)⟩
  | send i m =>
    obtain ⟨b, hb, rfl⟩ := Option.map_eq_some_iff.mp h
    exact ⟨i, _, rfl, .inr (.inr ⟨b, hb, .inl ⟨m, rfl⟩⟩)⟩
  | take i want m =>
    obtain ⟨b, hb, h⟩ := Option.bind_eq_some_iff.mp h
    simp only [Option.ite_none_right_eq_some, Option.some.injEq] at h
    exact ⟨i, _, h.2.symm, .inr (.inr ⟨b, hb, .inr ⟨want, m, h.1, rfl⟩⟩)⟩
  | closes i =>
    simp only [step, Option.some.injEq] at h
    exact ⟨i, _, h.symm, .inl rfl⟩

/-- Every open box, after any run, has kept its messages. -/
theorem Mail.kept_of_reachable (hs : (Mail.sys kind : Sys (Mail ι M) _).Reachable s) :
    ∀ i b, s i = some b → b.Kept kind := by
  refine Sys.Reach.invariant (I := fun s => ∀ i b, s i = some b → b.Kept kind) ?_ ?_ hs
  · rintro s rfl i b hb
    simp at hb
  · intro s a s' hI _ hst i b hb
    obtain ⟨j, o, rfl, ho⟩ := step_cases hst
    by_cases hij : i = j
    · subst hij
      rw [Function.update_self] at hb
      subst hb
      rcases ho with ho | ho | ⟨b', hb', ⟨m, hm⟩ | ⟨want, m, hm, ho⟩⟩
      · cases ho
      · cases ho
        exact ⟨fun k => rfl, List.Perm.refl _⟩
      · cases hm
        exact (hI i b' hb').put m
      · cases ho
        exact (hI i b' hb').take hm
    · rw [Function.update_of_ne hij] at hb
      exact hI i b hb

end

end OsLab
