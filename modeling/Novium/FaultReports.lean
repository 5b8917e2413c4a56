import Novium.PageTables

namespace Novium
open Storage

inductive Access where
  | read | write | fetch
  deriving DecidableEq, Repr

def Access.isWrite : Access → Bool
  | write => true
  | _ => false

def Access.isFetch : Access → Bool
  | fetch => true
  | _ => false

def PageFaultCause.access : PageFaultCause → Option Access
  | none => .none
  | loadAccessFault => some .read
  | storeAccessFault => some .write
  | fetchAccessFault => some .fetch
  | loadPageFault => some .read
  | storePageFault => some .write
  | fetchPageFault => some .fetch

def PageTableEntry.grants (pte : PageTableEntry) : Access → Bool
  | .read => pte.read
  | .write => pte.write
  | .fetch => pte.execute

-- Where a walk of the tables stops: at an entry outside RAM, at an invalid one, at a
-- leaf, or below a last level that was no leaf.
inductive WalkEnd where
  | outside
  | invalid
  | leaf (pte : PageTableEntry)
  | exhausted
  deriving DecidableEq, Repr

def walkEnd (ram : ByteStore) (va : Word) : Nat → DWord → WalkEnd
  | 0,_ => .exhausted
  | level+1,curPpn =>
    let pteAddr := curPpn*pageSize + vpnLevel va level*8
    if ram.size < pteAddr.toNat+8 then .outside
    else
      let pte : PageTableEntry := ⟨ram.dword (pteAddr.truncate 32).toNat⟩
      if !pte.valid then .invalid
      else if pte.isLeaf then .leaf pte
      else walkEnd ram va level pte.ppn

-- A call has reported faithfully when it came back and, where it failed, left its
-- record for this address, of the kind of this access and equal to what the caller was told.
def Reports (va : Word) (access : Access) (ran : Option Translation) : Prop :=
  ∃ t, ran = some t ∧ (t.pa = none → t.mmu.lastFaultVa = va ∧ t.mmu.lastFault.access = some access ∧
    ∀ c, t.cause = some c → c = t.mmu.lastFault)

namespace MMU
variable {u : MMU} {ram : ByteStore} {csr : CSRFile} {va : Word} {access : Access}
  {cause : Option PageFaultCause} {c : PageFaultCause}

-- The record an earlier fault left happens to be the one this fault calls for.
def Stale (u : MMU) (va : Word) (access : Access) (cause : Option PageFaultCause) (c : PageFaultCause) : Prop :=
  u.lastFaultVa = va ∧ u.lastFault.access = some access ∧ (cause.isSome = true → u.lastFault = c)

-- What the end of a walk asks of a faithful report.
def Faithful (u : MMU) (csr : CSRFile) (va : Word) (access : Access) (cause : Option PageFaultCause) : WalkEnd → Prop
  | .outside => access = .read
  | .invalid => cause.isSome = true
  | .leaf pte =>
    if pte.grants access then csr.priv = .user → pte.user = false → u.Stale va access cause .loadPageFault
    else cause.isSome = true
  | .exhausted => access = .read ∧ cause.isSome = true

def Cached (u : MMU) (csr : CSRFile) (va : Word) (access : Access) : Prop :=
  ∃ e, u.find (vpnOf va) (asidOf csr.satp) = some e ∧
    e.perms &&& needPerms access.isWrite access.isFetch = needPerms access.isWrite access.isFetch

def WalkFaithful (u : MMU) (csr : CSRFile) (va : Word) (access : Access) (cause : Option PageFaultCause) :
    Option ByteStore → Prop
  | none => u.Stale va access cause .loadAccessFault
  | some ram => u.Faithful csr va access cause (walkEnd ram va 3 (csr.satp &&& 0xFFFFFFFFFFF))

theorem fault_reports : Reports va access (some (u.fault va cause c)) ↔ c.access = some access := by
  constructor
  · rintro ⟨t,same,reported⟩
    cases same
    exact (reported rfl).2.1
  · intro kind
    refine ⟨_,rfl,fun _ => ⟨rfl,kind,?_⟩⟩
    intro d told
    cases cause with
    | none => cases told
    | some old =>
      cases told
      rfl

theorem faultVia_reports : Reports va access (u.faultVia va cause c) ↔ cause.isSome = true ∧ c.access = some access := by
  cases cause with
  | none =>
    constructor
    · rintro ⟨t,ran,_⟩
      cases ran
    · rintro ⟨given,_⟩
      cases given
  | some old =>
    rw [faultVia_some,fault_reports]
    exact ⟨fun kind => ⟨rfl,kind⟩,And.right⟩

theorem unrecorded_reports :
    Reports va access (some ⟨u,cause.map fun _ => c,none⟩) ↔ u.Stale va access cause c := by
  constructor
  · rintro ⟨t,same,reported⟩
    cases same
    obtain ⟨address,kind,told⟩ := reported rfl
    refine ⟨address,kind,?_⟩
    intro given
    cases cause with
    | none => cases given
    | some old => exact (told c rfl).symm
  · rintro ⟨address,kind,told⟩
    refine ⟨_,rfl,fun _ => ⟨address,kind,?_⟩⟩
    intro d pointee
    cases cause with
    | none => cases pointee
    | some old =>
      cases pointee
      exact (told rfl).symm

theorem answered_reports {pa : Word} : Reports va access (some ⟨u,cause,some pa⟩) :=
  ⟨_,rfl,fun failed => by cases failed⟩

theorem accessFault_access (access : Access) :
    (accessFault access.isWrite access.isFetch).access = some access := by
  cases access <;> rfl

theorem walkLeaf_eq (pte : PageTableEntry) : u.walkLeaf csr va access.isWrite access.isFetch cause pte =
    if pte.grants access then
      if csr.priv = .user && !pte.user then some ⟨u,cause.map fun _ => .loadPageFault,none⟩
      else some ⟨u.insert ⟨vpnOf va,pte.ppn,pte.perms,true,asidOf csr.satp⟩,cause,some (physical pte.ppn va)⟩
    else u.faultVia va cause (accessFault access.isWrite access.isFetch) := by
  cases access with
  | read => cases granted : pte.read <;> simp [walkLeaf,Access.isWrite,Access.isFetch,PageTableEntry.grants,accessFault,granted]
  | write => cases granted : pte.write <;> simp [walkLeaf,Access.isWrite,Access.isFetch,PageTableEntry.grants,accessFault,granted]
  | fetch => cases granted : pte.execute <;> simp [walkLeaf,Access.isWrite,Access.isFetch,PageTableEntry.grants,accessFault,granted]

theorem walkLeaf_reports (pte : PageTableEntry) :
    Reports va access (u.walkLeaf csr va access.isWrite access.isFetch cause pte) ↔
      u.Faithful csr va access cause (.leaf pte) := by
  rw [walkLeaf_eq]
  unfold Faithful
  dsimp only
  by_cases granted : pte.grants access = true
  · rw [if_pos granted,if_pos granted]
    by_cases refused : (csr.priv = .user && !pte.user) = true
    · rw [if_pos refused,unrecorded_reports]
      have below : csr.priv = .user ∧ pte.user = false := by simpa using refused
      exact ⟨fun stale _ _ => stale,fun stale => stale below.1 below.2⟩
    · rw [if_neg refused]
      refine ⟨fun _ user above => ?_,fun _ => answered_reports⟩
      simp [user,above] at refused
  · rw [if_neg granted,if_neg granted,faultVia_reports]
    exact ⟨And.left,fun given => ⟨given,accessFault_access access⟩⟩

theorem walkLevels_reports (level : Nat) (curPpn : DWord) :
    Reports va access (u.walkLevels ram csr va access.isWrite access.isFetch cause level curPpn) ↔
      u.Faithful csr va access cause (walkEnd ram va level curPpn) := by
  have load : ∀ {c : PageFaultCause}, c.access = some .read → (c.access = some access ↔ access = .read) := by
    intro c kind
    rw [kind,Option.some.injEq]
    exact eq_comm
  induction level generalizing curPpn with
  | zero =>
    rw [show u.walkLevels ram csr va access.isWrite access.isFetch cause 0 curPpn =
      u.faultVia va cause .loadPageFault from rfl,faultVia_reports,load rfl,and_comm]
    exact Iff.rfl
  | succ level ih =>
    unfold walkLevels walkEnd
    dsimp only
    split
    · rw [fault_reports,load rfl]
      exact Iff.rfl
    · split
      · rw [faultVia_reports]
        exact ⟨And.left,fun given => ⟨given,accessFault_access access⟩⟩
      · split
        · exact walkLeaf_reports _
        · exact ih _

theorem walk_reports (ram : Option ByteStore) :
    Reports va access (u.walk ram (some csr) va access.isWrite access.isFetch cause) ↔
      u.WalkFaithful csr va access cause ram := by
  cases ram with
  | none => exact unrecorded_reports
  | some ram => exact walkLevels_reports 3 _

theorem bare_reports : Reports va access (some (u.bare va access.isWrite access.isFetch cause)) := by
  unfold bare
  split
  · exact answered_reports
  · split
    · rename_i write
      rw [fault_reports]
      cases access <;> simp_all [Access.isWrite,PageFaultCause.access]
    · split
      · rename_i fetch
        rw [fault_reports]
        cases access <;> simp_all [Access.isFetch,PageFaultCause.access]
      · exact answered_reports

theorem tlbLookup_miss {u' : MMU} (cause : Option PageFaultCause)
    (missed : u.tlbLookup (some csr) va (needPerms access.isWrite access.isFetch) = (u',none)) :
    ¬ u.Cached csr va access ∧ u'.enabled = u.enabled ∧
      ∀ ram, u'.WalkFaithful csr va access cause ram ↔ u.WalkFaithful csr va access cause ram := by
  unfold tlbLookup at missed
  simp only [Option.map_some,Option.getD_some] at missed
  cases found : u.find (vpnOf va) (asidOf csr.satp) with
  | none =>
    rw [found] at missed
    cases missed
    refine ⟨?_,rfl,fun ram => by cases ram <;> exact Iff.rfl⟩
    rintro ⟨e,cached,_⟩
    rw [found] at cached
    cases cached
  | some e =>
    rw [found] at missed
    dsimp only at missed
    split at missed
    · cases missed
    · rename_i unusable
      cases missed
      refine ⟨?_,rfl,fun _ => Iff.rfl⟩
      rintro ⟨e',cached,usable⟩
      rw [found] at cached
      cases cached
      exact unusable usable

theorem tlbLookup_hit {u' : MMU} {pa : Word}
    (hit : u.tlbLookup (some csr) va (needPerms access.isWrite access.isFetch) = (u',some pa)) : u.Cached csr va access := by
  unfold tlbLookup at hit
  simp only [Option.map_some,Option.getD_some] at hit
  cases found : u.find (vpnOf va) (asidOf csr.satp) with
  | none =>
    rw [found] at hit
    cases hit
  | some e =>
    rw [found] at hit
    dsimp only at hit
    split at hit
    · exact ⟨e,found,‹_›⟩
    · cases hit

end MMU

-- The report is faithful exactly where the TLB or the simple map answers, or the walk
-- ends at one of the exits that fill in all three outputs for this access.
theorem faults_reported_iff (u : MMU) (ram : Option ByteStore) (csr : CSRFile) (va : Word) (access : Access)
    (cause : Option PageFaultCause) (enabled : u.enabled = true) :
    Reports va access (u.translate ram (some csr) va access.isWrite access.isFetch cause) ↔
      u.Cached csr va access ∨ csr.satp = 0 ∨ u.WalkFaithful csr va access cause ram := by
  unfold MMU.translate
  split
  · rename_i hit
    exact ⟨fun _ => .inl (MMU.tlbLookup_hit hit),fun _ => MMU.answered_reports⟩
  · rename_i missed
    obtain ⟨uncached,same,walk⟩ := MMU.tlbLookup_miss cause missed
    simp only [same,enabled,Option.map_some,Option.getD_some,Bool.not_true,Bool.false_or,decide_eq_true_eq]
    by_cases zero : csr.satp = 0
    · rw [if_pos zero]
      exact ⟨fun _ => .inr (.inl zero),fun _ => MMU.bare_reports⟩
    · rw [if_neg zero,MMU.walk_reports,walk ram]
      refine ⟨fun faithful => .inr (.inr faithful),?_⟩
      rintro (cached | bare | faithful)
      · exact absurd cached uncached
      · exact absurd bare zero
      · exact faithful

def pagedMmu : MMU := {MMU.initial with enabled := true}
def pagedCsr : CSRFile := CSRFile.initial.write csrSatp (8 <<< 60)
def noTables : ByteStore := ⟨4096,fun _ => 0⟩

theorem faults_reported_store : Reports 0x1234 .write
    (pagedMmu.translate (some noTables) (some pagedCsr) 0x1234 true false (some .none)) := by
  refine (faults_reported_iff pagedMmu (some noTables) pagedCsr 0x1234 .write (some .none) rfl).mpr (.inr (.inr ?_))
  rw [MMU.WalkFaithful,show walkEnd noTables 0x1234 3 (pagedCsr.satp &&& 0xFFFFFFFFFFF) = .invalid by decide +kernel]
  rfl

-- A load there with the default argument for `cause` copies from a null pointer.
theorem fault_without_pointer : ¬ ∀ (u : MMU) (ram : Option ByteStore) (csr : CSRFile) (va : Word) (access : Access)
    (cause : Option PageFaultCause), u.enabled = true →
      Reports va access (u.translate ram (some csr) va access.isWrite access.isFetch cause) := by
  intro reports
  obtain ⟨t,ran,_⟩ := reports pagedMmu (some noTables) pagedCsr 0x1234 .read none rfl
  have null : (pagedMmu.translate (some noTables) (some pagedCsr) 0x1234 false false none).isNone = true := by decide +kernel
  rw [show pagedMmu.translate (some noTables) (some pagedCsr) 0x1234 false false none = some t from ran] at null
  cases null

end Novium
