import Mathlib.Algebra.Ring.Int.Defs
import Mathlib.Algebra.Ring.Nat
import Mathlib.Data.Int.Basic
import Mathlib.Data.Nat.Basic

/-!
# The machine: constants, words and panics

The constants of `param.h`, `memlayout.h` and `mmu.h` that the model uses, the 32-bit arithmetic of the C code, and the
ways in which a kernel path can stop the machine.

Unsigned 32-bit values (`uint`) are natural numbers below `2 ^ 32`, with the reduction written out where the code can
wrap (`u32`). Signed ones (`int`) are integers, reduced by `int32`.
-/

namespace OsLab

/-- `NPROC`: the slots of the process table. -/
abbrev NPROC : Nat := 64

instance instNeZeroNPROC : NeZero NPROC := ⟨by decide⟩

/-- `NOFILE`: the open files of a process. -/
abbrev NOFILE : Nat := 16

/-- `MAXARG`: the arguments of `exec`. -/
def MAXARG : Nat := 32

/-- `PGSIZE`: the bytes of a page. -/
def PGSIZE : Nat := 4096

/-- `KERNBASE`: the first kernel virtual address. -/
def KERNBASE : Nat := 0x80000000

/-- `EXTMEM`: the start of extended memory. -/
def EXTMEM : Nat := 0x100000

/-- `PHYSTOP`: the top of physical memory. -/
def PHYSTOP : Nat := 0xE000000

/-- `DEVSPACE`: the devices at high addresses. -/
def DEVSPACE : Nat := 0xFE000000

/-- A value reduced to a `uint`. -/
def u32 (n : Nat) : Nat := n % 2 ^ 32

/-- A value reduced to an `int`, in two's complement. -/
def int32 (n : Int) : Int := Int.bmod n (2 ^ 32)

/-- An `int` read as a `uint`. -/
def uintOf (n : Int) : Nat := (n % 2 ^ 32).toNat

/-- An argument of a system call as `argint` fetches it: `none` when the fetch fails. -/
abbrev Arg := Option Int

/-- `argptr`: the address in the argument, when a block of `size` bytes there lies in a process of `sz` bytes. The sum is a
`uint`, so it can wrap. -/
def argptr (sz : Nat) (a : Arg) (size : Int) : Option Nat :=
  match a with
  | none => none
  | some i => if size < 0 ∨ sz ≤ uintOf i ∨ sz < u32 (uintOf i + uintOf size) then none else some (uintOf i)

/-- A page of physical memory, by number: the page at physical address `f * PGSIZE`. A kernel pointer to a page that
`kalloc` returned is the number of its frame, and the null pointer is the `none` of an option. -/
abbrev Frame := Nat

/-- The pages of physical memory. -/
def NFRAMES : Nat := PHYSTOP / PGSIZE

/-- `uint` arithmetic does nothing to what fits. -/
theorem u32_of_lt {n : Nat} (h : n < 2 ^ 32) : u32 n = n := Nat.mod_eq_of_lt h

/-- `int` arithmetic does nothing to what fits. -/
theorem int32_of_lt {n : Int} (h0 : -2 ^ 31 ≤ n) (h1 : n < 2 ^ 31) : int32 n = n := by
  unfold int32
  exact Int.bmod_eq_of_le (by omega) (by omega)

/-- A sum may be reduced as it goes. -/
theorem int32_add (a b : Int) : int32 (int32 a + b) = int32 (a + b) := by
  unfold int32
  exact Int.bmod_add_bmod

end OsLab
