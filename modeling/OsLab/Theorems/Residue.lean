import OsLab.Lemmas.Residue
import OsLab.Lemmas.MailView

/-!
# Receivers learn what was sent

`sys_msgrcv` compares the length of the message with the size that the caller has asked for as unsigned numbers. A message whose length
is negative is then longer than any other, and the receiver gets as many bytes as it has asked for, whatever the page of the node held.
`same_deliveries_iff` says that this is the only way in which what memory held gets to a receiver.
-/

namespace OsLab

namespace ResidueAux

variable {P A : Type*} [DecidableEq P] [DecidableEq A] [Fintype A] {s t : MsgSt P A} {acts : List (MsgAct P A)}

/-- Nothing is filled at boot. -/
theorem boot_fill (hs : s.Boot) (b : UInt8) : s.fill b = s := by
  have hpage : fillPages b s.page = s.page := by
    funext a
    rcases hs.page a with ha | ha <;> simp only [fillPages, ha, Page.fill]
  simp only [MsgSt.fill, hpage]

/-- A step of a run adds to the record. -/
theorem log_step {act : MsgAct P A} (hs : msgSys.Reachable s) (h : msgStep s act = some t) : s.log <+: t.log := by
  obtain ⟨ql, nl, hi⟩ := queueInv_of_reachable hs
  rcases hi.step_outcome h with ⟨ql', nl', hout⟩ | ⟨⟨f, rfl⟩, -⟩
  · obtain ⟨-, l, hlog, -⟩ := hi.log_grows hout
    exact ⟨l, hlog.symm⟩
  · exact List.prefix_refl _

theorem log_run (hs : msgSys.Reachable s) (h : msgSys.run s acts = some t) : s.log <+: t.log := by
  induction acts generalizing s with
  | nil =>
    cases h
    exact List.prefix_refl _
  | cons act acts ih =>
    obtain ⟨u, hu, hrun⟩ := Option.bind_eq_some_iff.mp h
    exact (log_step hs hu).trans (ih (.step act hs trivial hu) hrun)

/-- Of a run that copies out only what the senders wrote there is another for any other contents of memory, with the same record. -/
theorem run_same {acts' : List (MsgAct P A)} (hc : msgSys.along Covered s acts) (hsame : SameCalls acts acts')
    (ht : msgSys.run s acts = some t) : ∃ t', msgSys.run s acts' = some t' ∧ t'.log = t.log := by
  have hc' : msgSys.along Covered s acts' := by
    rw [← along_fill (b := 0), hsame]
    exact along_fill.mpr hc
  have hruns : (msgSys.run s acts').map (MsgSt.fill 0) = some (t.fill 0) := by
    rw [← run_fill hc', hsame, run_fill hc, ht]
    rfl
  obtain ⟨t', ht', hfill⟩ := Option.map_eq_some_iff.mp hruns
  have hlog : (t'.fill 0).log = (t.fill 0).log := by rw [hfill]
  exact ⟨t', ht', hlog⟩

omit [DecidableEq A] [Fintype A] in
/-- Where more is copied out than the sender wrote, a byte of it is what memory held. -/
theorem copied_byte (n : MsgNode A) {size : Int} (hlt : min n.length.toNat NODEROOM < size.toNat) (b : UInt8) :
    ((n.fill b).copied (fun _ => b) size)[min n.length.toNat NODEROOM]? = some b := by
  rw [MsgNode.copied, List.getElem?_map, List.getElem?_range hlt, Option.map_some, Option.some_inj]
  split
  · rename_i hroom
    exact if_neg (by omega)
  · rfl

/-- What a delivery adds to the record, with memory full of `b`. -/
theorem deliver_log {p : P} {f : A} {c : RecvCall} {n : MsgNode A} {addr : Nat} {b : UInt8}
    (hp : s.pc p = .delivering f c) (hn : nodeAt s.page f = some n)
    (harg : argptr c.sz c.msgp (int32 (LONGSIZE + copysz n.length c.msgsz)) = some addr)
    (h : msgStep (s.fill b) (.deliver p fun _ => b) = some t) :
    t.log = s.log ++
      [.received p addr n.msgtyp ((n.fill b).copied (fun _ => b) (copysz n.length c.msgsz)) (copysz n.length c.msgsz)] := by
  have hp' : (s.fill b).pc p = .delivering f c := hp
  have hn' : nodeAt (s.fill b).page f = some (n.fill b) := by rw [MsgSt.fill, nodeAt_fill, hn]; rfl
  have hlen : (n.fill b).length = n.length := rfl
  have hdel := deliver_eq hp' h
  simp only [msgrcvDeliver, hn', hlen, harg] at hdel
  rw [← hdel]
  rfl

/-- When what memory held makes no difference, every delivery is of what the sender wrote. Two runs are enough, with memory full of
zeros and full of ones: up to the first other delivery they are in the same states but for what is behind the messages, and that
delivery tells them apart. -/
theorem covered_of_same {u : UInt8 → MsgSt P A} (hs : ∀ b, msgSys.Reachable (s.fill b))
    (hrun : ∀ b, msgSys.run (s.fill b) (acts.map (MsgAct.fill b)) = some (u b))
    (hsame : ∀ p, receivedBy p (u 0).log = receivedBy p (u 1).log) : msgSys.along Covered s acts := by
  induction acts generalizing s with
  | nil => trivial
  | cons act acts ih =>
    have hfirst : ∀ b, ∃ v, msgStep (s.fill b) (act.fill b) = some v ∧ msgSys.run v (acts.map (MsgAct.fill b)) = some (u b) :=
      fun b => Option.bind_eq_some_iff.mp (hrun b)
    have hc : Covered s act := by
      cases act with
      | deliver p beyond =>
        refine covered_deliver.mpr fun f c n hp hn => ?_
        by_contra hno
        rw [not_or, not_le] at hno
        obtain ⟨addr, harg⟩ := Option.ne_none_iff_exists'.mp hno.1
        have hlog : ∀ b, ∃ l, receivedBy p (u b).log = receivedBy p s.log ++
            (n.msgtyp, (n.fill b).copied (fun _ => b) (copysz n.length c.msgsz), copysz n.length c.msgsz) :: l := by
          intro b
          obtain ⟨v, hv, hv'⟩ := hfirst b
          obtain ⟨l, hl⟩ := log_run (.step _ (hs b) trivial hv) hv'
          refine ⟨receivedBy p l, ?_⟩
          rw [← hl, deliver_log hp hn harg hv, receivedBy_append, receivedBy_append, List.append_assoc]
          simp [receivedBy]
        obtain ⟨l0, h0⟩ := hlog 0
        obtain ⟨l1, h1⟩ := hlog 1
        have heq := List.append_cancel_left (h0.symm.trans ((hsame p).trans h1))
        have htext := congrArg (fun x => x.2.1[min n.length.toNat NODEROOM]?) (List.cons.inj heq).1
        simp only [copied_byte n hno.2] at htext
        exact absurd htext (by decide)
      | _ => trivial
    refine ⟨hc, fun s1 hs1 => ?_⟩
    have hnext : ∀ b, msgStep (s.fill b) (act.fill b) = some (s1.fill b) := by
      intro b
      rw [msgStep_fill hc]
      exact congrArg (Option.map _) hs1
    refine ih (fun b => .step _ (hs b) trivial (hnext b)) fun b => ?_
    obtain ⟨v, hv, hv'⟩ := hfirst b
    rw [hnext b] at hv
    exact Option.some.inj hv ▸ hv'

end ResidueAux

open ResidueAux

/-- In every run of the message calls: what memory held before, in the pages that `kalloc` has returned for the nodes and behind them,
makes no difference to what the receivers get exactly when every `sys_msgrcv` that gets to copy a message out copies no more of it
than the sender has written. -/
theorem same_deliveries_iff {P A : Type*} [DecidableEq P] [DecidableEq A] [Fintype A] {s t : MsgSt P A} {acts : List (MsgAct P A)}
    (hs : s.Boot) (ht : msgSys.run s acts = some t) :
    (∀ acts', SameCalls acts acts' →
      ∃ t', msgSys.run s acts' = some t' ∧ ∀ p, receivedBy p t'.log = receivedBy p t.log) ↔ msgSys.along Covered s acts := by
  constructor
  · intro h
    have hfill : ∀ b, SameCalls acts (acts.map (MsgAct.fill b)) := by
      intro b
      refine (List.map_map ..).trans (List.map_congr_left fun act _ => ?_)
      cases act <;> rfl
    choose u hu using fun b => h _ (hfill b)
    refine covered_of_same (u := u) (fun b => ?_) (fun b => ?_) fun p => ((hu 0).2 p).trans ((hu 1).2 p).symm
    · rw [boot_fill hs]
      exact .init hs
    · rw [boot_fill hs]
      exact (hu b).1
  · intro hc acts' hsame
    obtain ⟨t', ht', hlog⟩ := run_same hc hsame ht
    exact ⟨t', ht', fun p => by rw [hlog]⟩

/-- A process creates a queue, sends a message of this size, and asks for four bytes of it. The page of the node has held `junk`. -/
def residueSample (msgsz : Int) (junk : UInt8) : List (MsgAct (Fin 1) (Fin 2)) :=
  [.get 0 (some 5) (some 0o1000) (some 0), .snd 0 (some 1) (some 0) (some msgsz) (some 0) 8192 7 (fun _ => 42),
    .sndAlloc 0 (some 1) (fun _ => junk), .sndAppend 0, .rcv 0 (some 1) (some 0) (some 4) (some 0) (some 0) 8192, .rcvScan 0,
    .deliver 0 (fun _ => junk)]

/-- The state after that. -/
def residueState (msgsz : Int) (junk : UInt8) : Option (MsgSt (Fin 1) (Fin 2)) :=
  msgSys.run (MsgSt.start _ _) (residueSample msgsz junk)

/-- Of a message of two bytes the receiver gets two bytes, whatever the page has held. -/
theorem same_deliveries_two : ∃ t, residueState 2 9 = some t ∧ receivedBy 0 t.log = [(7, [42, 42], 2)] ∧
    ∀ acts', SameCalls (residueSample 2 9) acts' →
      ∃ t', msgSys.run (MsgSt.start _ _) acts' = some t' ∧ ∀ p, receivedBy p t'.log = receivedBy p t.log := by
  obtain ⟨t, ht⟩ := Option.isSome_iff_exists.mp (show (residueState 2 9).isSome = true by decide +kernel)
  have hlog : (residueState 2 9).map (fun t => receivedBy 0 t.log) = some [(7, [42, 42], 2)] := by decide +kernel
  have hok : (msgSys.runOk Covered (MsgSt.start _ _) (residueSample 2 9)).isSome = true := by decide +kernel
  obtain ⟨u, hu⟩ := Option.isSome_iff_exists.mp hok
  rw [ht] at hlog
  exact ⟨t, ht, Option.some.inj hlog, (same_deliveries_iff (MsgSt.start_boot _ _) ht).mpr (Sys.along_of_runOk hu)⟩

/-- A message of size -1 is accepted, and whoever asks for four bytes of it gets four bytes of what the page has held. -/
theorem msgrcv_leaks_page : SameCalls (residueSample (-1) 9) (residueSample (-1) 8) ∧
    (residueState (-1) 9).map (fun t => receivedBy 0 t.log) = some [(7, [9, 9, 9, 9], 4)] ∧
    (residueState (-1) 8).map (fun t => receivedBy 0 t.log) = some [(7, [8, 8, 8, 8], 4)] :=
  ⟨rfl, by decide +kernel, by decide +kernel⟩

end OsLab
