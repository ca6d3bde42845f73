import OsLab.MsgAccess
import OsLab.Lemmas.QueueRuns
import OsLab.Theorems.NodeBounds

/-!
# The message calls and the caller's memory

`argptr` is asked about `msgsz + sizeof(long)` bytes, and the type is four bytes whatever that comes to. For a size from -4 to -1 the
check is of fewer than four bytes. So an access that is let through lies in the caller exactly when the type does.
-/

namespace OsLab

namespace AccessAux

theorem mem_byteRange {addr n x : Nat} : x ∈ byteRange addr n ↔ ∃ k < n, u32 (addr + k) = x := by
  simp only [byteRange, List.mem_map, List.mem_range]

/-- A range that does not wrap and is not empty lies below `sz` when its end does. -/
theorem byteRange_lt_iff {addr n sz : Nat} (hn : 0 < n) (hwrap : addr + n ≤ 2 ^ 32) :
    (∀ x ∈ byteRange addr n, x < sz) ↔ addr + n ≤ sz := by
  constructor
  · intro h
    have hlast := h (u32 (addr + (n - 1))) (mem_byteRange.mpr ⟨n - 1, by omega, rfl⟩)
    rw [u32_of_lt (by omega)] at hlast
    omega
  · intro h x hx
    obtain ⟨k, hk, rfl⟩ := mem_byteRange.mp hx
    rw [u32_of_lt (by omega)]
    omega

theorem int32_range (n : Int) : -2 ^ 31 ≤ int32 n ∧ int32 n < 2 ^ 31 := by
  unfold int32
  rw [Int.bmod_def]
  omega

theorem uintOf_int32 (n : Int) : uintOf (int32 n) = uintOf n := by
  unfold uintOf int32
  rw [Int.bmod_def]
  omega

/-- What `argptr` has let through: the payload lies in the caller, if there is one, and the address does. -/
theorem argptr_access {sz : Nat} {msgp : Arg} {size : Int} {addr : Nat} (hsz : sz < KERNBASE)
    (h : argptr sz msgp (int32 (LONGSIZE + size)) = some addr) :
    addr < sz ∧ (0 < int32 size → addr + LONGSIZE + uintOf size ≤ sz) := by
  cases msgp with
  | none => cases h
  | some i =>
    obtain ⟨rfl, h0, hlt, hle⟩ := NodeAux.argptr_some_iff.mp h
    refine ⟨hlt, fun hpos => ?_⟩
    have hrange := int32_range size
    have hlong : ((LONGSIZE : Nat) : Int) = 4 := rfl
    have hsum : int32 (LONGSIZE + size) = int32 (int32 size + 4) := by rw [int32_add, hlong, add_comm]
    rw [hsum] at h0 hle
    -- the size does not wrap, or it would be negative
    have hbig : int32 size + 4 < 2 ^ 31 := by
      by_contra hge
      have : int32 (int32 size + 4) < 0 := by
        rw [int32, Int.bmod_def]
        omega
      omega
    have hcheck : uintOf (int32 size + 4) = (int32 size + 4).toNat := NodeAux.uintOf_of_nonneg (by omega) (by omega)
    have hsize : uintOf (int32 size) = (int32 size).toNat := NodeAux.uintOf_of_nonneg (by omega) (by omega)
    rw [int32_of_lt (by omega) hbig, hcheck] at hle
    rw [← uintOf_int32 size, hsize]
    simp only [KERNBASE, LONGSIZE] at *
    rw [u32_of_lt (by omega)] at hle
    omega

/-- An access that has been let through lies in its process exactly when its type does. -/
theorem inside_iff {a : UserAccess} (hsz : a.sz < KERNBASE) (hlt : a.addr < a.sz)
    (hpay : 0 < int32 a.size → a.addr + LONGSIZE + uintOf a.size ≤ a.sz) : a.Inside ↔ a.addr + LONGSIZE ≤ a.sz := by
  have htype : (∀ x ∈ byteRange a.addr LONGSIZE, x < a.sz) ↔ a.addr + LONGSIZE ≤ a.sz :=
    byteRange_lt_iff (by decide) (by simp only [KERNBASE, LONGSIZE] at *; omega)
  unfold UserAccess.Inside UserAccess.bytes
  constructor
  · intro h
    exact htype.mp fun x hx => h x (List.mem_append_left _ hx)
  · intro h x hx
    rcases List.mem_append.mp hx with hx | hx
    · exact htype.mpr h x hx
    · split at hx
      · rename_i hpos
        obtain ⟨k, hk, rfl⟩ := mem_byteRange.mp hx
        have hend := hpay hpos
        simp only [KERNBASE] at hsz
        rw [u32_of_lt (by omega)]
        omega
      · cases hx

variable {P A : Type*} [DecidableEq P] [DecidableEq A] [Fintype A] {s s' : MsgSt P A} {act : MsgAct P A}

omit [DecidableEq A] in
/-- What a `sys_msgsnd` by a process outside the calls comes to: it goes on with its queue, or returns -1, or has followed a pointer of
the list to where there is no queue. -/
theorem snd_cases {p : P} (hp : s.pc p = .user) (msqid msgp msgsz msgflg : Arg) (sz : Nat) (typ : Int) (text : Nat → UInt8) :
    let t := sysMsgsnd s p msqid msgp msgsz msgflg sz typ text
    (∃ q addr size, t.pc p = .sending q ⟨size, typ, text⟩ ∧ argptr sz msgp (int32 (LONGSIZE + size)) = some addr) ∨
      t.pc p = .user ∧ t = s.ret p (-1) ∨ t.pc p = .user ∧ ∃ f, t = s.fail f := by
  have hret : (s.ret p (-1)).pc p = .user := Function.update_self ..
  intro t
  simp only [t, sysMsgsnd]
  split
  · rename_i msqid msgsz msgflg
    cases harg : argptr sz msgp (int32 (msgsz + LONGSIZE)) with
    | none => exact .inr (.inl ⟨hret, rfl⟩)
    | some addr =>
      simp only [MsgSt.lookup]
      cases seekQueue s.page (·.id == msqid) s.listHead with
      | found prev a =>
        refine .inl ⟨s.refTo a, addr, msgsz, Function.update_self .., ?_⟩
        rw [add_comm]
        exact harg
      | absent => exact .inr (.inl ⟨hret, rfl⟩)
      | dangling => exact .inr (.inr ⟨hp, .dangling, rfl⟩)
      | endless => exact .inr (.inr ⟨hp, .endless, rfl⟩)
  · exact .inr (.inl ⟨hret, rfl⟩)

/-- A step that may come to an access asks `argptr` about it, and returns -1 when it is refused. -/
theorem access_cases {p : P} (hst : msgStep s act = some s') (hact : act.accessor = some p) :
    (∃ a msgp, access? s act = some a ∧ argptr a.sz msgp (int32 (LONGSIZE + a.size)) = some a.addr) ∨
      access? s act = none ∧ (s'.fault = none → s'.log = s.log ++ [.ret p (-1)]) := by
  cases (msgMoves_of_msgStep hst).2 with
  | @snd _ msqid msgp msgsz msgflg sz typ text hp =>
    cases hact
    rcases snd_cases hp msqid msgp msgsz msgflg sz typ text with ⟨q, addr, size, hpc, harg⟩ | ⟨hpc, hret⟩ | ⟨hpc, f, hfail⟩
    · cases msgp with
      | none => cases harg
      | some i =>
        obtain rfl := (NodeAux.argptr_some_iff.mp harg).1
        exact .inl ⟨⟨uintOf i, size, sz⟩, some i, by simp only [access?, hpc], harg⟩
    · exact .inr ⟨by simp only [access?, hpc], fun _ => by rw [hret]; rfl⟩
    · refine .inr ⟨by simp only [access?, hpc], fun h => ?_⟩
      rw [hfail] at h
      cases h
  | @deliver _ f c beyond hp =>
    cases hact
    simp only [access?, hp]
    cases hn : nodeAt s.page f with
    | none =>
      refine .inr ⟨rfl, fun h => ?_⟩
      simp only [msgrcvDeliver, hn] at h
      cases h
    | some n =>
      simp only [Option.bind_some]
      cases harg : argptr c.sz c.msgp (int32 (LONGSIZE + copysz n.length c.msgsz)) with
      | none => exact .inr ⟨rfl, fun _ => by simp only [msgrcvDeliver, hn, harg]; rfl⟩
      | some addr => exact .inl ⟨_, c.msgp, rfl, harg⟩
  | _ => cases hact

end AccessAux

open AccessAux

/-- What the message calls may do with the memory of their caller: a step reads or writes addresses of the caller only, and one that
could have come to an access and does not has returned -1. -/
structure KeepsInside {P A : Type*} [DecidableEq P] [Fintype A] (s : MsgSt P A) (act : MsgAct P A) (s' : MsgSt P A) : Prop where
  inside : ∀ a, access? s act = some a → a.Inside
  refused : ∀ p, act.accessor = some p → access? s act = none → s'.fault = none → s'.log = s.log ++ [.ret p (-1)]

/-- For every state, every caller below `KERNBASE` and every pointer and size: a step of `sys_msgsnd` or `sys_msgrcv` keeps to the
caller's memory, or returns -1 without an access, exactly when the four bytes of the type of an access that is let through lie in the
caller. -/
theorem message_access_iff {P A : Type*} [DecidableEq P] [DecidableEq A] [Fintype A] {s s' : MsgSt P A} {act : MsgAct P A}
    (hst : msgStep s act = some s') (hsz : ∀ a, access? s act = some a → a.sz < KERNBASE) :
    KeepsInside s act s' ↔ ∀ a, access? s act = some a → a.addr + LONGSIZE ≤ a.sz := by
  cases hact : act.accessor with
  | none =>
    have hno : access? s act = none := by cases act <;> first | rfl | cases hact
    constructor
    · intro _ a ha
      rw [hno] at ha
      cases ha
    · intro _
      refine ⟨fun a ha => ?_, fun p hp => ?_⟩
      · rw [hno] at ha
        cases ha
      · rw [hact] at hp
        cases hp
  | some p =>
    rcases access_cases hst hact with ⟨a, msgp, ha, harg⟩ | ⟨hno, hret⟩
    · obtain ⟨hlt, hpay⟩ := argptr_access (hsz a ha) harg
      have hiff := inside_iff (hsz a ha) hlt hpay
      constructor
      · rintro ⟨hin, -⟩ b hb
        obtain rfl : a = b := Option.some.inj (ha.symm.trans hb)
        exact hiff.mp (hin a ha)
      · intro h
        refine ⟨fun b hb => ?_, fun p' _ hno => ?_⟩
        · obtain rfl : a = b := Option.some.inj (ha.symm.trans hb)
          exact hiff.mpr (h a ha)
        · rw [ha] at hno
          cases hno
    · constructor
      · intro _ a ha
        rw [hno] at ha
        cases ha
      · intro _
        refine ⟨fun a ha => ?_, fun p' hp' _ => ?_⟩
        · rw [hno] at ha
          cases ha
        · rw [hact] at hp'
          cases hp'
          exact hret

/-- A process of 8192 bytes sends a message of this size from this address, and asks for -1 bytes of it at the same address. -/
def edgeSample (msgp msgsz : Int) : List (MsgAct (Fin 1) (Fin 2)) :=
  [.get 0 (some 5) (some 0o1000) (some 0), .snd 0 (some 1) (some msgp) (some msgsz) (some 0) 8192 7 (fun _ => 42),
    .sndAlloc 0 (some 1) (fun _ => 9), .sndAppend 0, .rcv 0 (some 1) (some msgp) (some (-1)) (some 0) (some 0) 8192, .rcvScan 0,
    .deliver 0 (fun _ => 9)]

/-- The state before the step of this number. -/
def edgeState (msgp msgsz : Int) (n : Nat) : Option (MsgSt (Fin 1) (Fin 2)) :=
  msgSys.run (MsgSt.start _ _) ((edgeSample msgp msgsz).take n)

/-- A message of no bytes whose type is the last four bytes of the caller is received there. -/
theorem message_access_last : ∃ s s', edgeState 8188 0 6 = some s ∧ msgStep s (.deliver 0 fun _ => 9) = some s' ∧
    access? s (.deliver 0 fun _ => 9) = some ⟨8188, 0, 8192⟩ ∧ KeepsInside s (.deliver 0 fun _ => 9) s' := by
  obtain ⟨s, hs⟩ := Option.isSome_iff_exists.mp (show (edgeState 8188 0 6).isSome = true by decide +kernel)
  have haccess : (edgeState 8188 0 6).bind (fun s => access? s (.deliver 0 fun _ => 9)) = some ⟨8188, 0, 8192⟩ := by decide +kernel
  have hstep : ((edgeState 8188 0 6).bind fun s => msgStep s (.deliver 0 fun _ => 9)).isSome = true := by decide +kernel
  rw [hs] at haccess hstep
  obtain ⟨s', hs'⟩ := Option.isSome_iff_exists.mp hstep
  have hone : ∀ a, access? s (.deliver 0 fun _ => 9) = some a → a = ⟨8188, 0, 8192⟩ := by
    intro a ha
    exact Option.some.inj (ha.symm.trans haccess)
  refine ⟨s, s', hs, hs', haccess, (message_access_iff hs' fun a ha => ?_).mpr fun a ha => ?_⟩
  · rw [hone a ha]
    decide
  · rw [hone a ha]
    decide

/-- A message of size -3 from the last byte of the caller: both calls are let through, the send reads the three bytes behind the caller,
and the receive writes them. -/
theorem message_access_behind :
    (edgeState 8191 (-3) 1).bind (fun s => access? s ((edgeSample 8191 (-3)).getD 1 (.kill 0))) = some ⟨8191, -3, 8192⟩ ∧
    (edgeState 8191 (-3) 6).bind (fun s => access? s ((edgeSample 8191 (-3)).getD 6 (.kill 0))) = some ⟨8191, -3, 8192⟩ ∧
    (edgeState 8191 (-3) 7).isSome = true ∧ 8192 ∈ (⟨8191, -3, 8192⟩ : UserAccess).bytes ∧
    ¬(⟨8191, -3, 8192⟩ : UserAccess).Inside :=
  ⟨by decide +kernel, by decide +kernel, by decide +kernel, by decide +kernel, by decide +kernel⟩

end OsLab
