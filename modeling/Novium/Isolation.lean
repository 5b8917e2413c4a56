import Novium.Tlb

namespace Novium
open Storage Relation

inductive PrivMove (ram : ByteStore) : MMU × CSRFile → MMU × CSRFile → Prop where
  | translate {u : MMU} {csr : CSRFile} {va : Word} {isWrite isFetch : Bool} {cause : Option PageFaultCause}
      {t : Translation} : u.translate (some ram) (some csr) va isWrite isFetch cause = some t →
      PrivMove ram (u,csr) (t.mmu,csr)
  | takeTrap (t : Trap) : PrivMove ram (u,csr) (u,InterruptController.takeTrapCsr csr t)
  | mret : PrivMove ram (u,csr) (u,(InterruptController.mret csr).2)
  | sret : PrivMove ram (u,csr) (u,(InterruptController.sret csr).2)

-- An entry under the programmed address space carries its leaf's permissions, U included.
structure EntriesMatch (ram : ByteStore) (satp : DWord) (u : MMU) (csr : CSRFile) : Prop where
  enabled : u.enabled = true
  programmed : csr.satp = satp
  leaf : ∀ k, (u.tlb k).valid = true → (u.tlb k).asid = asidOf satp → ∀ va, vpnOf va = (u.tlb k).vpn →
    ∃ pte level, leafOf ram satp va = some (pte,level) ∧ (u.tlb k).perms = pte.perms

section Isolation
variable {ram : ByteStore} {satp : DWord} {u : MMU} {csr : CSRFile} {s s' : MMU × CSRFile}

theorem satp_mret (csr : CSRFile) : (InterruptController.mret csr).2.satp = csr.satp := by
  unfold CSRFile.satp InterruptController.mret
  rw [CSRFile.read_withPriv]
  exact CSRFile.read_write_other _ _ _ _ (by decide)

theorem satp_sret (csr : CSRFile) : (InterruptController.sret csr).2.satp = csr.satp := by
  unfold CSRFile.satp InterruptController.sret
  rw [CSRFile.read_withPriv]
  exact CSRFile.read_write_other _ _ _ _ (by decide)

theorem entriesMatch_step (programmed : satp ≠ 0) (entries : EntriesMatch ram satp s.1 s.2) (move : PrivMove ram s s') :
    EntriesMatch ram satp s'.1 s'.2 := by
  cases move with
  | takeTrap t =>
    exact ⟨entries.enabled,(InterruptController.takeTrapCsr_other _ _ _ (by decide)).trans entries.programmed,entries.leaf⟩
  | mret => exact ⟨entries.enabled,(satp_mret _).trans entries.programmed,entries.leaf⟩
  | sret => exact ⟨entries.enabled,(satp_sret _).trans entries.programmed,entries.leaf⟩
  | @translate u csr va isWrite isFetch cause t ran =>
    obtain ⟨kept,effect⟩ := MMU.translate_inv ran
    refine ⟨kept.1.trans entries.enabled,entries.programmed,?_⟩
    rcases effect with ⟨_,_,_,unchanged⟩ | ⟨_,_,unchanged | ⟨slot,e,updated,fills⟩⟩
    · rw [unchanged]
      exact entries.leaf
    · rw [unchanged]
      exact entries.leaf
    · rw [updated]
      intro k valid tag vb page
      by_cases here : k = slot
      · subst here
        rw [Function.update_self] at page ⊢
        cases fills with
        | bare bare _ =>
          have enabled : u.enabled = true := entries.enabled
          have same : csr.satp = satp := entries.programmed
          rw [enabled,same] at bare
          exact absurd (by simpa using bare) programmed
        | walk _ leaf _ =>
          rw [entries.programmed] at leaf
          exact ⟨_,_,(leafOf_page page).trans leaf,rfl⟩
      · rw [Function.update_of_ne here] at valid tag page ⊢
        exact entries.leaf k valid tag vb page

theorem entriesMatch_path (programmed : satp ≠ 0) (entries : EntriesMatch ram satp s.1 s.2)
    (path : ReflTransGen (PrivMove ram) s s') : EntriesMatch ram satp s'.1 s'.2 := by
  induction path with
  | refl => exact entries
  | tail _ move ih => exact entriesMatch_step programmed ih move

end Isolation

-- A user access gets no address on a page whose leaf has U clear.
def UserIsolated (ram : ByteStore) (u : MMU) (csr : CSRFile) (va : Word) (isWrite isFetch : Bool)
    (cause : Option PageFaultCause) : Prop :=
  ∀ pte level, leafOf ram csr.satp va = some (pte,level) → pte.user = false →
    ∀ t, u.translate (some ram) (some csr) va isWrite isFetch cause = some t → t.pa = none

def SupervisorHit (u : MMU) (csr : CSRFile) (va : Word) (isWrite isFetch : Bool) : Prop :=
  ∃ e, u.find (vpnOf va) (asidOf csr.satp) = some e ∧
    e.perms &&& needPerms isWrite isFetch = needPerms isWrite isFetch ∧ e.perms.getLsbD 3 = false

-- After any history, a user access is kept out exactly when the TLB does not answer
-- it from an entry that was filled for a higher privilege.
theorem user_isolation_iff (ram : ByteStore) (start s : MMU × CSRFile) (enabled : start.1.enabled = true)
    (emptied : start.1.Emptied) (programmed : start.2.satp ≠ 0) (path : ReflTransGen (PrivMove ram) start s)
    (user : s.2.priv = .user) (va : Word) (isWrite isFetch : Bool) (cause : Option PageFaultCause) :
    UserIsolated ram s.1 s.2 va isWrite isFetch cause ↔ ¬ SupervisorHit s.1 s.2 va isWrite isFetch := by
  have entries : EntriesMatch ram start.2.satp s.1 s.2 := by
    refine entriesMatch_path programmed ⟨enabled,rfl,?_⟩ path
    intro k valid
    rw [emptied k] at valid
    cases valid
  have userBit : ∀ {e}, s.1.find (vpnOf va) (asidOf s.2.satp) = some e →
      ∃ pte level, leafOf ram s.2.satp va = some (pte,level) ∧ e.perms.getLsbD 3 = pte.user := by
    intro e found
    obtain ⟨k,rfl,valid,page,tag⟩ := MMU.find_some found
    rw [entries.programmed] at tag ⊢
    obtain ⟨pte,level,leaf,perms⟩ := entries.leaf k valid tag va page.symm
    refine ⟨pte,level,leaf,?_⟩
    rw [perms]
    exact (perms_bits pte).2.2.2
  constructor
  · intro isolated hit
    obtain ⟨e,found,usable,clear⟩ := hit
    obtain ⟨pte,level,leaf,bit⟩ := userBit found
    have hit : ∃ t, s.1.translate (some ram) (some s.2) va isWrite isFetch cause = some t ∧
        t.pa = some (physical e.ppn va) := by
      simp [MMU.translate,MMU.tlbLookup,found,usable]
    obtain ⟨t,ran,answer⟩ := hit
    have none := isolated pte level leaf (bit.symm.trans clear) t ran
    rw [answer] at none
    cases none
  · intro missed pte level leaf clear t ran
    rcases MMU.translate_inv ran with ⟨_,⟨found,usable,_⟩ | ⟨_,answer,_⟩⟩
    · obtain ⟨pte',level',leaf',bit⟩ := userBit found
      rw [leaf] at leaf'
      cases leaf'
      exact absurd ⟨_,found,usable,bit.trans clear⟩ missed
    · have walked : ¬ (!s.1.enabled || s.2.satp = 0) = true := by
        simp only [entries.enabled,entries.programmed,Bool.not_true,Bool.false_or,decide_eq_true_eq]
        exact programmed
      have refused : pte.permits s.2.priv isWrite isFetch = false := by
        simp [PageTableEntry.permits,user,clear]
      rw [answer,MMU.slowAddr,if_neg walked,walkAddr,leaf,Option.bind_some,refused]
      rfl

-- One superpage, readable and not for user mode, loaded from by machine mode before
-- an MRET drops to user mode.
def supervisorTables : ByteStore := ⟨8192,fun a => if a = 4096 then 3 else 0⟩

def machineMode : MMU × CSRFile :=
  ({MMU.initial with enabled := true},CSRFile.initial.write csrSatp 0x8000000000000001)

def droppedToUser : Option (MMU × CSRFile) :=
  (machineMode.1.translate (some supervisorTables) (some machineMode.2) 0x10 false false none).map fun t =>
    (t.mmu,(InterruptController.mret machineMode.2).2)

theorem droppedToUser_reached {s : MMU × CSRFile} (dropped : droppedToUser = some s) :
    ReflTransGen (PrivMove supervisorTables) machineMode s ∧ s.2.priv = .user := by
  unfold droppedToUser at dropped
  obtain ⟨t,ran,rfl⟩ := Option.map_eq_some_iff.mp dropped
  have filled : PrivMove supervisorTables machineMode (t.mmu,machineMode.2) := .translate ran
  have user : (InterruptController.mret machineMode.2).2.priv = .user := by decide +kernel
  exact ⟨(ReflTransGen.single filled).tail .mret,user⟩

theorem user_isolation_fetch : ∃ s, droppedToUser = some s ∧ UserIsolated supervisorTables s.1 s.2 0x10 false true none := by
  have unusable : droppedToUser.any (fun s => (s.1.find (vpnOf 0x10) (asidOf s.2.satp)).all
      fun e => e.perms &&& needPerms false true != needPerms false true) = true := by decide +kernel
  obtain ⟨s,dropped,missed⟩ := (Option.any_eq_true _ _).mp unusable
  obtain ⟨path,user⟩ := droppedToUser_reached dropped
  refine ⟨s,dropped,(user_isolation_iff supervisorTables machineMode s rfl (fun _ => rfl) (by decide) path user
    0x10 false true none).mpr ?_⟩
  intro hit
  obtain ⟨e,found,usable,_⟩ := hit
  rw [found] at missed
  exact bne_iff_ne.mp missed usable

theorem user_reads_supervisor_page : ¬ ∀ (ram : ByteStore) (start s : MMU × CSRFile), start.1.enabled = true →
    start.1.Emptied → start.2.satp ≠ 0 → ReflTransGen (PrivMove ram) start s → s.2.priv = .user →
    ∀ va isWrite isFetch cause, UserIsolated ram s.1 s.2 va isWrite isFetch cause := by
  intro isolated
  have answered : droppedToUser.any (fun s =>
      (s.1.translate (some supervisorTables) (some s.2) 0x10 false false none).any (fun t => t.pa == some 0x10) &&
        (leafOf supervisorTables s.2.satp 0x10).any fun leaf => !leaf.1.user) = true := by decide +kernel
  obtain ⟨s,dropped,holds⟩ := (Option.any_eq_true _ _).mp answered
  obtain ⟨path,user⟩ := droppedToUser_reached dropped
  simp only [Bool.and_eq_true,Option.any_eq_true,beq_iff_eq,Bool.not_eq_true'] at holds
  obtain ⟨⟨t,ran,answer⟩,⟨pte,level⟩,leaf,clear⟩ := holds
  have none := isolated supervisorTables machineMode s rfl (fun _ => rfl) (by decide) path user 0x10 false false none
    pte level leaf clear t ran
  rw [answer] at none
  cases none

end Novium
