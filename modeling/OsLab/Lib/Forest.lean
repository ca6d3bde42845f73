import OsLab.Lib.Run
import Mathlib.Logic.Relation

/-!
# Families of recycled slots

An abstract account of a table of slots that are claimed, given a parent, made live, ended and used again. A live member
makes another in stages: it claims a free slot (an embryo nobody can see yet), becomes its parent, and publishes it; before
it has become the parent it may give the slot up. A member other than the root may exit: it becomes a zombie and the root
adopts its children. A parent reaps a zombie child, which frees the slot.

Each life of a slot is an instance with a number of its own, so a reused slot can be told from its earlier lives. The
invariant `Forest.Inv` says that the lives never get mixed up: the parent of every member is live and older, so the parent
pointers lead to the root, and no instance ends twice.
-/

namespace OsLab

open Function (update)

/-- The stages of a slot's life. -/
inductive Phase where
  | free
  | embryo
  | live
  | zombie
  deriving DecidableEq, Repr

/-- What a member is in the middle of making: nothing, a slot it has claimed, or a claimed slot it has become the parent
of. -/
inductive Making (ι : Type*) where
  | idle
  | bare (i : ι)
  | adopted (i : ι)
  deriving DecidableEq

/-- The slots, the instance each one holds, how many instances there have been, and which of them have ended. -/
@[ext]
structure Forest (ι : Type*) where
  root : ι
  phase : ι → Phase
  parent : ι → Option ι
  making : ι → Making ι
  inst : ι → Nat
  count : Nat
  ended : List Nat

/-- The steps of the members. -/
inductive ForestAct (ι : Type*) where
  | claim (p i : ι)
  | abandon (p i : ι)
  | adopt (p i : ι)
  | publish (p i : ι)
  | exit (p : ι)
  | reap (p i : ι)

namespace Forest

variable {ι : Type*} [DecidableEq ι]

/-- One step: `none` when the member may not take it. -/
def step (F : Forest ι) : ForestAct ι → Option (Forest ι)
  | .claim p i =>
    if F.phase p = .live ∧ F.making p = .idle ∧ F.phase i = .free then
      some { F with
        phase := update F.phase i .embryo
        making := update F.making p (.bare i)
        inst := update F.inst i F.count
        count := F.count + 1 }
    else none
  | .abandon p i =>
    if F.making p = .bare i then
      some { F with
        phase := update F.phase i .free
        making := update F.making p .idle
        ended := F.inst i :: F.ended }
    else none
  | .adopt p i =>
    if F.making p = .bare i then
      some { F with
        parent := update F.parent i (some p)
        making := update F.making p (.adopted i) }
    else none
  | .publish p i =>
    if F.making p = .adopted i then
      some { F with
        phase := update F.phase i .live
        making := update F.making p .idle }
    else none
  | .exit p =>
    if p ≠ F.root ∧ F.phase p = .live ∧ F.making p = .idle then
      some { F with
        phase := update F.phase p .zombie
        parent := fun i => if F.parent i = some p then some F.root else F.parent i }
    else none
  | .reap p i =>
    if F.phase i = .zombie ∧ F.parent i = some p then
      some { F with
        phase := update F.phase i .free
        parent := update F.parent i none
        ended := F.inst i :: F.ended }
    else none

/-- Only the root is live, and it is the first instance. -/
structure Init (F : Forest ι) : Prop where
  phase : F.phase = update (fun _ => .free) F.root .live
  parent : F.parent = fun _ => none
  making : F.making = fun _ => .idle
  inst : F.inst F.root = 0
  count : F.count = 1
  ended : F.ended = []

/-- The members of the family, in any order of their steps. -/
def sys (ι : Type*) [DecidableEq ι] : Sys (Forest ι) (ForestAct ι) where
  init := Init
  step := step

/-- `p` is in the middle of making `i`. -/
def Makes (F : Forest ι) (p i : ι) : Prop := F.making p = .bare i ∨ F.making p = .adopted i

/-- What holds in every reachable family. -/
structure Inv (F : Forest ι) : Prop where
  rootLive : F.phase F.root = .live
  rootInst : F.inst F.root = 0
  /-- The instances in use are distinct and were handed out. -/
  instLt : ∀ i, F.phase i ≠ .free → F.inst i < F.count
  instInj : ∀ i j, F.phase i ≠ .free → F.phase j ≠ .free → F.inst i = F.inst j → i = j
  /-- A free slot has no parent to point to. -/
  freeParent : ∀ i, F.phase i = .free → F.parent i = none
  /-- Who makes a slot is live and older, and the slot is an embryo that nobody else makes. -/
  makesLive : ∀ p i, F.Makes p i → F.phase p = .live ∧ F.phase i = .embryo ∧ F.inst p < F.inst i
  makesInj : ∀ p q i, F.Makes p i → F.Makes q i → p = q
  bareParent : ∀ p i, F.making p = .bare i → F.parent i = none
  adoptedParent : ∀ p i, F.making p = .adopted i → F.parent i = some p
  embryoMade : ∀ i, F.phase i = .embryo → ∃ p, F.Makes p i
  /-- Every member but the root has a live, older parent. -/
  parentLive : ∀ i, F.phase i = .live ∨ F.phase i = .zombie → i ≠ F.root →
    ∃ j, F.parent i = some j ∧ F.phase j = .live ∧ F.inst j < F.inst i
  /-- No instance ends twice, and one that has ended is in no slot any more. -/
  endedNodup : F.ended.Nodup
  endedLt : ∀ n ∈ F.ended, n < F.count
  endedGone : ∀ i, F.phase i ≠ .free → F.inst i ∉ F.ended

namespace Inv

variable {F F' : Forest ι} {p i : ι}

omit [DecidableEq ι] in
/-- The root is the oldest instance in use. -/
theorem rootInst_lt (hI : F.Inv) (hi : F.phase i ≠ .free) (hne : i ≠ F.root) : F.inst F.root < F.inst i := by
  have hroot : F.phase F.root ≠ .free := by simp [hI.rootLive]
  have hdiff : F.inst i ≠ F.inst F.root := fun h => hne (hI.instInj i F.root hi hroot h)
  have := hI.rootInst
  omega

/-- When a member stops making its embryo, every other embryo still has its maker. -/
theorem other_made (hI : F.Inv) (hp : F.Makes p i) {x : Phase} (hx : x ≠ .embryo) {j : ι}
    (hj : update F.phase i x j = .embryo) :
    ∃ q, update F.making p .idle q = .bare j ∨ update F.making p .idle q = .adopted j := by
  have hji : j ≠ i := by
    rintro rfl
    simp [hx] at hj
  obtain ⟨q, hq⟩ := hI.embryoMade j (by simpa [hji] using hj)
  have hqp : q ≠ p := by
    rintro rfl
    unfold Makes at hp hq
    grind
  rw [Makes] at hq
  exact ⟨q, by simpa [hqp] using hq⟩

theorem init (h : F.Init) : F.Inv := by
  obtain ⟨hph, hpar, hmk, hinst, hcount, hended⟩ := h
  have hroot : F.phase F.root = .live := by simp [hph]
  have honly : ∀ i, F.phase i ≠ .free → i = F.root := by
    intro i hi
    by_contra hne
    simp [hph, hne] at hi
  have hnone : ∀ p i, ¬ F.Makes p i := by simp [Makes, hmk]
  constructor <;> grind [Makes]

omit [DecidableEq ι] in
/-- Only embryos are being made. -/
theorem not_makes (hI : F.Inv) (hi : F.phase i ≠ .embryo) (q : ι) : ¬ F.Makes q i := fun hq => hi (hI.makesLive q i hq).2.1

/-- A claim: the slot was free, so nothing pointed to it, and its instance is new. -/
theorem claim (hI : F.Inv) (h : F.step (.claim p i) = some F') : F'.Inv := by
  obtain ⟨⟨hlive, hidle, hfree⟩, rfl⟩ := of_guard h
  have hnot := hI.not_makes (i := i) (by simp [hfree])
  have hroot : F.root ≠ i := fun heq => by simp [← heq, hI.rootLive] at hfree
  have hlt := hI.instLt
  have hmakes := hI.makesLive
  have hinj := hI.makesInj
  have hmade := hI.embryoMade
  constructor <;> simp only [Makes, Function.update_apply] at *
  case rootLive => simp [hroot, hI.rootLive]
  case rootInst => simp [hroot, hI.rootInst]
  case instLt | makesLive | makesInj | embryoMade => grind
  case instInj => grind [hI.instInj]
  case freeParent => grind [hI.freeParent]
  case bareParent => grind [hI.bareParent, hI.freeParent]
  case adoptedParent => grind [hI.adoptedParent]
  case parentLive => grind [hI.parentLive]
  case endedNodup => exact hI.endedNodup
  case endedLt => exact fun n hn => Nat.lt_succ_of_lt (hI.endedLt n hn)
  case endedGone =>
    have hended := hI.endedLt
    grind [hI.endedGone]

/-- A slot that is given up was an embryo that only its maker knew: nobody's parent is lost. -/
theorem abandon (hI : F.Inv) (h : F.step (.abandon p i) = some F') : F'.Inv := by
  obtain ⟨hbare, rfl⟩ := of_guard h
  obtain ⟨hp, hi, -⟩ := hI.makesLive p i (Or.inl hbare)
  have hroot : F.root ≠ i := fun heq => by simp [← heq, hI.rootLive] at hi
  have hgone : F.inst i ∉ F.ended := hI.endedGone i (by simp [hi])
  have hother := fun j => hI.other_made (Or.inl hbare) (x := .free) (by simp) (j := j)
  have hlt := hI.instLt
  have hmakes := hI.makesLive
  have hinj := hI.makesInj
  constructor
  case embryoMade => exact hother
  all_goals simp only [Makes, Function.update_apply] at *
  case rootLive => simp [hroot, hI.rootLive]
  case rootInst => exact hI.rootInst
  case instLt | makesLive | makesInj => grind
  case instInj => grind [hI.instInj]
  case freeParent => grind [hI.freeParent, hI.bareParent]
  case bareParent => grind [hI.bareParent]
  case adoptedParent => grind [hI.adoptedParent]
  case parentLive => grind [hI.parentLive]
  case endedNodup => exact List.nodup_cons.mpr ⟨hgone, hI.endedNodup⟩
  case endedLt => exact List.forall_mem_cons.mpr ⟨hlt i (by simp [hi]), hI.endedLt⟩
  case endedGone => grind [hI.endedGone, hI.instInj]

/-- Becoming the parent of an embryo touches no other slot. -/
theorem adopt (hI : F.Inv) (h : F.step (.adopt p i) = some F') : F'.Inv := by
  obtain ⟨hbare, rfl⟩ := of_guard h
  obtain ⟨hp, hi, holder⟩ := hI.makesLive p i (Or.inl hbare)
  have hmakes := hI.makesLive
  have hinj := hI.makesInj
  have hmade := hI.embryoMade
  constructor <;> simp only [Makes, Function.update_apply] at *
  case rootLive => exact hI.rootLive
  case rootInst => exact hI.rootInst
  case instLt => exact hI.instLt
  case instInj => exact hI.instInj
  case freeParent => grind [hI.freeParent]
  case makesLive | makesInj | embryoMade => grind
  case bareParent => grind [hI.bareParent]
  case adoptedParent => grind [hI.adoptedParent]
  case parentLive => grind [hI.parentLive]
  case endedNodup => exact hI.endedNodup
  case endedLt => exact hI.endedLt
  case endedGone => exact hI.endedGone

/-- A published slot has a live, older parent: the one who made it. -/
theorem publish (hI : F.Inv) (h : F.step (.publish p i) = some F') : F'.Inv := by
  obtain ⟨hadopted, rfl⟩ := of_guard h
  obtain ⟨hp, hi, holder⟩ := hI.makesLive p i (Or.inr hadopted)
  have hpar : F.parent i = some p := hI.adoptedParent p i hadopted
  have hother := fun j => hI.other_made (Or.inr hadopted) (x := .live) (by simp) (j := j)
  have hlt := hI.instLt
  have hmakes := hI.makesLive
  have hinj := hI.makesInj
  constructor
  case embryoMade => exact hother
  all_goals simp only [Makes, Function.update_apply] at *
  case rootLive => grind [hI.rootLive]
  case rootInst => exact hI.rootInst
  case instLt | makesLive | makesInj => grind
  case instInj => grind [hI.instInj]
  case freeParent => grind [hI.freeParent]
  case bareParent => grind [hI.bareParent]
  case adoptedParent => grind [hI.adoptedParent]
  case parentLive => grind [hI.parentLive]
  case endedNodup => exact hI.endedNodup
  case endedLt => exact hI.endedLt
  case endedGone => grind [hI.endedGone]

/-- An exit: the children of the member move to the root, which is live and older than each of them; an embryo is not
among them, since its maker is idle no longer than it is being made. -/
theorem exit (hI : F.Inv) (h : F.step (.exit p) = some F') : F'.Inv := by
  obtain ⟨⟨hne, hlive, hidle⟩, rfl⟩ := of_guard h
  have holder : ∀ j, F.phase j ≠ .free → j ≠ F.root → F.inst F.root < F.inst j := fun j => hI.rootInst_lt
  have hnot : ∀ q j, F.Makes q j → q ≠ p := by
    rintro q j hq rfl
    simp [Makes, hidle] at hq
  have hroot := hI.rootLive
  have hlt := hI.instLt
  have hmakes := hI.makesLive
  have hinj := hI.makesInj
  have hmade := hI.embryoMade
  constructor <;> simp only [Makes, Function.update_apply] at *
  case rootLive => simp [Ne.symm hne, hroot]
  case rootInst => exact hI.rootInst
  case instLt | makesLive | makesInj | embryoMade => grind
  case instInj => grind [hI.instInj]
  case freeParent => grind [hI.freeParent]
  case bareParent => grind [hI.bareParent]
  case adoptedParent => grind [hI.adoptedParent]
  case parentLive => grind [hI.parentLive]
  case endedNodup => exact hI.endedNodup
  case endedLt => exact hI.endedLt
  case endedGone => grind [hI.endedGone]

/-- A reaped slot was a zombie, so it was nobody's parent. -/
theorem reap (hI : F.Inv) (h : F.step (.reap p i) = some F') : F'.Inv := by
  obtain ⟨⟨hz, hpar⟩, rfl⟩ := of_guard h
  have hroot : F.root ≠ i := fun heq => by simp [← heq, hI.rootLive] at hz
  have hnot := hI.not_makes (i := i) (by simp [hz])
  have hgone : F.inst i ∉ F.ended := hI.endedGone i (by simp [hz])
  have hlt := hI.instLt
  have hmakes := hI.makesLive
  have hinj := hI.makesInj
  have hmade := hI.embryoMade
  constructor <;> simp only [Makes, Function.update_apply] at *
  case rootLive => simp [hroot, hI.rootLive]
  case rootInst => exact hI.rootInst
  case instLt | makesLive | makesInj | embryoMade => grind
  case instInj => grind [hI.instInj]
  case freeParent => grind [hI.freeParent]
  case bareParent => grind [hI.bareParent]
  case adoptedParent => grind [hI.adoptedParent]
  case parentLive => grind [hI.parentLive]
  case endedNodup => exact List.nodup_cons.mpr ⟨hgone, hI.endedNodup⟩
  case endedLt => exact List.forall_mem_cons.mpr ⟨hlt i (by simp [hz]), hI.endedLt⟩
  case endedGone => grind [hI.endedGone, hI.instInj]

/-- Every step keeps the invariant. -/
theorem step {a : ForestAct ι} (hI : F.Inv) (h : F.step a = some F') : F'.Inv := by
  cases a with
  | claim p i => exact hI.claim h
  | abandon p i => exact hI.abandon h
  | adopt p i => exact hI.adopt h
  | publish p i => exact hI.publish h
  | exit p => exact hI.exit h
  | reap p i => exact hI.reap h

end Inv

/-- The invariant holds of every reachable family. -/
theorem inv_of_reachable {F : Forest ι} (h : (sys ι).Reachable F) : F.Inv :=
  Sys.Reach.invariant (I := Inv) (fun _ hi => Inv.init hi) (fun _ _ _ hI _ hst => hI.step hst) h

omit [DecidableEq ι] in
/-- Following parents from any member leads, through live members only, to the root: each parent is older, so the way
ends. -/
theorem Inv.reaches_root {F : Forest ι} (hI : F.Inv) (i : ι) (hi : F.phase i = .live ∨ F.phase i = .zombie) :
    Relation.ReflTransGen (fun i j => F.parent i = some j ∧ F.phase j = .live) i F.root := by
  induction hn : F.inst i using Nat.strongRecOn generalizing i with
  | ind n ih =>
    by_cases hroot : i = F.root
    · rw [hroot]
    · obtain ⟨j, hpar, hlive, hlt⟩ := hI.parentLive i hi hroot
      exact .head ⟨hpar, hlive⟩ (ih (F.inst j) (hn ▸ hlt) j (Or.inl hlive) rfl)

end Forest

end OsLab
