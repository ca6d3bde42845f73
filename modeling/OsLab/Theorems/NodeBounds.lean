import OsLab.MsgQueue

/-!
# What msgsnd writes into a node

The only check of the size in `sys_msgsnd` is the one of `argptr`, and it is against the size of the caller. So a message stays
inside the array of its node exactly when it is no longer than the array, or when it would not fit the caller either.
-/

namespace OsLab

namespace NodeAux

theorem uintOf_of_nonneg {n : Int} (h0 : 0 ≤ n) (h1 : n < 2 ^ 32) : uintOf n = n.toNat := by
  unfold uintOf
  rw [Int.emod_eq_of_lt h0 h1]

/-- When `argptr` accepts a block. -/
theorem argptr_some_iff {sz : Nat} {i size : Int} {addr : Nat} : argptr sz (some i) size = some addr ↔
    addr = uintOf i ∧ 0 ≤ size ∧ uintOf i < sz ∧ u32 (uintOf i + uintOf size) ≤ sz := by
  simp only [argptr, Option.ite_none_left_eq_some, not_or, not_lt, not_le, Option.some.injEq]
  constructor
  · rintro ⟨⟨h0, hlt, hle⟩, rfl⟩
    exact ⟨rfl, h0, hlt, hle⟩
  · rintro ⟨rfl, h0, hlt, hle⟩
    exact ⟨⟨h0, hlt, hle⟩, rfl⟩

/-- The check of `sys_msgsnd`, for a size that is not negative: the type and the payload lie in the caller. The sum of `argptr`
does not wrap, since both parts of it are below `KERNBASE`. -/
theorem argptr_msgsz {sz : Nat} {msgp msgsz : Int} (hsz : sz < KERNBASE) (h0 : 0 ≤ msgsz) (h31 : msgsz < 2 ^ 31) :
    argptr sz (some msgp) (int32 (msgsz + LONGSIZE)) = some (uintOf msgp) ↔ uintOf msgp + LONGSIZE + msgsz ≤ sz := by
  have hlong : ((LONGSIZE : Nat) : Int) = 4 := rfl
  unfold KERNBASE at hsz
  rw [argptr_some_iff, hlong]
  by_cases hbig : msgsz + 4 < 2 ^ 31
  · have huint : uintOf (msgsz + 4) = (msgsz + 4).toNat := uintOf_of_nonneg (by omega) (by omega)
    rw [int32_of_lt (by omega) hbig, huint]
    constructor
    · rintro ⟨-, -, hlt, hle⟩
      rw [u32_of_lt (by omega)] at hle
      omega
    · intro h
      refine ⟨rfl, by omega, by omega, ?_⟩
      rw [u32_of_lt (by omega)]
      omega
  · -- the size wraps to a negative `int`, and is refused
    have hneg : int32 (msgsz + 4) < 0 := by
      unfold int32
      rw [Int.bmod_def]
      omega
    constructor
    · rintro ⟨-, hpos, -⟩
      omega
    · intro h
      omega

/-- The bytes of the payload are all that is written. -/
theorem mem_written {c : SendCall} (h31 : c.msgsz < 2 ^ 31) (k : Nat) : k ∈ c.written ↔ (k : Int) < c.msgsz := by
  unfold SendCall.written
  split
  · rename_i hpos
    rw [List.mem_range, uintOf_of_nonneg hpos.le (by omega)]
    omega
  · simp only [List.not_mem_nil, false_iff]
    omega

theorem written_lt_iff {c : SendCall} (h31 : c.msgsz < 2 ^ 31) : (∀ k ∈ c.written, k < MSGDATA) ↔ c.msgsz ≤ MSGDATA := by
  simp only [mem_written h31]
  constructor
  · intro h
    by_contra hgt
    exact absurd (h MSGDATA (by omega)) (lt_irrefl _)
  · intro h k hk
    omega

end NodeAux

open NodeAux

section

variable {P A : Type*} [DecidableEq P] [Fintype A]

/-- A call of `sys_msgsnd` that names a queue is let through to its `kalloc` and `memmove` exactly when `argptr` accepts the
buffer. -/
theorem sysMsgsnd_sending {s : MsgSt P A} {p : P} {msqid msgp msgsz msgflg : Int} {sz : Nat} {typ : Int} {text : Nat → UInt8}
    {prev : Option A} {a : A} (hq : seekQueue s.page (·.id == msqid) s.listHead = .found prev a) (c : SendCall) :
    (∃ q, (sysMsgsnd s p (some msqid) (some msgp) (some msgsz) (some msgflg) sz typ text).pc p = .sending q c) ↔
      c = ⟨msgsz, typ, text⟩ ∧ argptr sz (some msgp) (int32 (msgsz + LONGSIZE)) = some (uintOf msgp) := by
  unfold sysMsgsnd
  cases harg : argptr sz (some msgp) (int32 (msgsz + LONGSIZE)) with
  | none => simp [harg, MsgSt.ret, MsgSt.setPc]
  | some addr =>
    obtain rfl := (argptr_some_iff.mp harg).1
    simp only [harg, MsgSt.lookup, hq, MsgSt.setPc, Function.update_self, MsgPc.sending.injEq, and_true]
    constructor
    · rintro ⟨q, -, rfl⟩
      rfl
    · rintro rfl
      exact ⟨_, rfl, rfl⟩

end

/-- For every size, address and size of the caller, and every state with a queue of the id: the calls of `sys_msgsnd` that are
let through to the `memmove` write only the array of the node exactly when the message is no longer than the array, or does not
lie in the caller. -/
theorem msgsnd_in_node_iff {P A : Type*} [DecidableEq P] [Fintype A] {s : MsgSt P A} {p : P}
    {msqid msgp msgsz msgflg : Int} {sz : Nat} {typ : Int} {text : Nat → UInt8} {prev : Option A} {a : A}
    (hq : seekQueue s.page (·.id == msqid) s.listHead = .found prev a) (hsz : sz < KERNBASE) (h31 : msgsz < 2 ^ 31) :
    (∀ q c, (sysMsgsnd s p (some msqid) (some msgp) (some msgsz) (some msgflg) sz typ text).pc p = .sending q c →
      ∀ k ∈ c.written, k < MSGDATA) ↔ msgsz ≤ MSGDATA ∨ sz < uintOf msgp + LONGSIZE + msgsz := by
  constructor
  · intro h
    by_contra hno
    rw [not_or, not_le, not_lt] at hno
    have hbig : 0 ≤ msgsz := by omega
    have harg := (argptr_msgsz hsz hbig h31).mpr hno.2
    obtain ⟨q, hsend⟩ := (sysMsgsnd_sending hq ⟨msgsz, typ, text⟩).mpr ⟨rfl, harg⟩
    exact absurd ((written_lt_iff h31).mp (h q _ hsend)) (not_le.mpr hno.1)
  · intro h q c hsend
    obtain ⟨rfl, harg⟩ := (sysMsgsnd_sending hq c).mp ⟨q, hsend⟩
    refine (written_lt_iff h31).mpr ?_
    rcases h with h | h
    · exact h
    · by_contra hgt
      have h0 : 0 ≤ msgsz := le_trans (Int.natCast_nonneg MSGDATA) (not_le.mp hgt).le
      exact absurd ((argptr_msgsz hsz h0 h31).mp harg) (not_le.mpr h)

/-- A process of two pages creates a queue and sends a message from address 0. -/
def sendSample (msgsz : Int) : List (MsgAct (Fin 1) (Fin 2)) :=
  [.get 0 (some 5) (some 0o1000) (some 0), .snd 0 (some 1) (some 0) (some msgsz) (some 0) 8192 7 (fun _ => 42),
    .sndAlloc 0 (some 1) (fun _ => 1), .sndAppend 0]

/-- The state with the queue. -/
def queueSample : MsgSt (Fin 1) (Fin 2) := (msgSys.run (MsgSt.start _ _) ((sendSample 0).take 1)).get (by decide +kernel)

theorem queueSample_seek : seekQueue queueSample.page (·.id == 1) queueSample.listHead = .found none 0 := by decide +kernel

/-- A message of 4000 bytes is let through, and stays inside the array. -/
theorem msgsnd_in_node_full :
    (∃ q, (sysMsgsnd queueSample 0 (some 1) (some 0) (some 4000) (some 0) 8192 7 (fun _ => 42)).pc 0 =
      .sending q ⟨4000, 7, fun _ => 42⟩) ∧
    ∀ q c, (sysMsgsnd queueSample 0 (some 1) (some 0) (some 4000) (some 0) 8192 7 (fun _ => 42)).pc 0 = .sending q c →
      ∀ k ∈ c.written, k < MSGDATA :=
  ⟨(sysMsgsnd_sending queueSample_seek _).mpr ⟨rfl, by decide⟩,
    (msgsnd_in_node_iff queueSample_seek (by decide) (by decide)).mpr (Or.inl (by decide))⟩

/-- The state after a message of 4001 bytes. -/
def longSample : MsgSt (Fin 1) (Fin 2) := (msgSys.run (MsgSt.start _ _) (sendSample 4001)).get (by decide +kernel)

/-- A message of 4001 bytes is accepted, and its last byte is written behind the array. -/
theorem msgsnd_leaves_node : msgSys.Reachable longSample ∧ longSample.fault = none ∧
    longSample.log.getLast? = some (.ret 0 0) ∧ MSGDATA ∈ (⟨4001, 7, fun _ => 42⟩ : SendCall).written ∧
      (nodeAt longSample.page 1).map (fun n => n.data MSGDATA) = some 42 := by
  refine ⟨Sys.reachable_of_run (MsgSt.start_boot _ _) (Option.some_get _).symm, by decide +kernel, rfl, ?_, by decide +kernel⟩
  exact (mem_written (by decide) _).mpr (by decide)

end OsLab
