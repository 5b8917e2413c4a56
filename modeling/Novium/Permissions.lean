import Novium.FaultReports
import Novium.Tlb

namespace Novium
open Storage Relation

-- R, W and X as `identity_map` takes them, in its three lowest bits.
structure Rights where
  read : Bool
  write : Bool
  execute : Bool
  deriving DecidableEq, Repr

namespace Rights

def perms (p : Rights) : BitVec 8 := (if p.read then 1 else 0) ||| (if p.write then 2 else 0) ||| (if p.execute then 4 else 0)

def grants (p : Rights) : Access → Bool
  | .read => p.read
  | .write => p.write
  | .fetch => p.execute

def of (pte : PageTableEntry) : Rights := ⟨pte.read,pte.write,pte.execute⟩

theorem perms_bits (p : Rights) : p.perms.getLsbD 1 = p.write ∧ p.perms.getLsbD 2 = p.execute := by
  unfold perms
  cases p.read <;> cases p.write <;> cases p.execute <;> decide

end Rights

theorem PageTableEntry.grants_rights (pte : PageTableEntry) (access : Access) : pte.grants access = (Rights.of pte).grants access := by
  cases access <;> rfl

theorem PageTableEntry.permits_access (pte : PageTableEntry) (priv : PrivilegeLevel) (access : Access) :
    pte.permits priv access.isWrite access.isFetch = (pte.grants access && !(priv = .user && !pte.user)) := by
  cases access <;> simp [permits,grants,Access.isWrite,Access.isFetch]

theorem Access.single (access : Access) : (access.isWrite && access.isFetch) = false := by
  cases access <;> rfl

def Gives (ran : Option Translation) (pa : Word) : Prop := ∃ t, ran = some t ∧ t.pa = some pa

namespace MMU

-- Calls of `translate` under one configuration, with a cause pointer or without.
inductive Translated (ram : ByteStore) (csr : CSRFile) : MMU → MMU → Prop where
  | call (u : MMU) (va : Word) (isWrite isFetch : Bool) (cause : Option PageFaultCause) (t : Translation) :
      u.translate (some ram) (some csr) va isWrite isFetch cause = some t → Translated ram csr u t.mmu

-- A usable entry gives the frame the slow path gives.
def Truthful (ram : ByteStore) (csr : CSRFile) (u : MMU) : Prop :=
  ∀ k, (u.tlb k).valid = true → (u.tlb k).asid = asidOf csr.satp → ∀ va (access : Access), vpnOf va = (u.tlb k).vpn →
    (u.tlb k).perms &&& needPerms access.isWrite access.isFetch = needPerms access.isWrite access.isFetch →
    u.slowAddr ram csr va access.isWrite access.isFetch = some (physical (u.tlb k).ppn va)

variable {u : MMU} {ram : ByteStore} {csr : CSRFile} {va pa : Word} {access : Access} {cause : Option PageFaultCause}
  {e : TLBEntry}

theorem faultVia_gives {c : PageFaultCause} : ¬ Gives (u.faultVia va cause c) pa := by
  rintro ⟨t,ran,given⟩
  unfold faultVia at ran
  split at ran
  · cases ran
    cases given
  · cases ran

theorem walkLeaf_gives (pte : PageTableEntry) : Gives (u.walkLeaf csr va access.isWrite access.isFetch cause pte) pa ↔
    (if pte.permits csr.priv access.isWrite access.isFetch then some (physical pte.ppn va) else none) = some pa := by
  rw [walkLeaf_eq,PageTableEntry.permits_access]
  cases granted : pte.grants access with
  | false => exact ⟨fun gives => absurd gives faultVia_gives,fun impossible => by cases impossible⟩
  | true =>
    cases refused : (csr.priv = .user && !pte.user) with
    | true =>
      refine ⟨?_,fun impossible => by cases impossible⟩
      rintro ⟨t,ran,given⟩
      cases ran
      cases given
    | false =>
      refine ⟨?_,fun answer => ⟨_,rfl,answer⟩⟩
      rintro ⟨t,ran,given⟩
      cases ran
      exact given

theorem walkLevels_gives (level : Nat) (curPpn : DWord) :
    Gives (u.walkLevels ram csr va access.isWrite access.isFetch cause level curPpn) pa ↔
      ((findLeaf ram va level curPpn).bind fun leaf =>
        if leaf.1.permits csr.priv access.isWrite access.isFetch then some (physical leaf.1.ppn va) else none) = some pa := by
  induction level generalizing curPpn with
  | zero => exact ⟨fun gives => absurd gives faultVia_gives,fun impossible => by cases impossible⟩
  | succ level ih =>
    unfold walkLevels findLeaf
    dsimp only
    split
    · refine ⟨?_,fun impossible => by cases impossible⟩
      rintro ⟨t,ran,given⟩
      cases ran
      cases given
    · split
      · exact ⟨fun gives => absurd gives faultVia_gives,fun impossible => by cases impossible⟩
      · split
        · exact walkLeaf_gives _
        · exact ih _

theorem slow_gives (u : MMU) (ram : ByteStore) (csr : CSRFile) (va pa : Word) (access : Access) (cause : Option PageFaultCause) :
    Gives (if !u.enabled || csr.satp = 0 then some (u.bare va access.isWrite access.isFetch cause)
    else u.walk (some ram) (some csr) va access.isWrite access.isFetch cause) pa ↔
      u.slowAddr ram csr va access.isWrite access.isFetch = some pa := by
  unfold slowAddr
  cases bare : !u.enabled || csr.satp = 0 with
  | true =>
    have answer : (u.bare va access.isWrite access.isFetch cause).pa = bareAddr u.simpleMap va access.isWrite access.isFetch :=
      (@bare_answers u ram csr va access.isWrite access.isFetch cause bare).1
    refine ⟨?_,fun given => ⟨_,rfl,answer.trans given⟩⟩
    rintro ⟨t,ran,given⟩
    cases ran
    exact answer.symm.trans given
  | false => exact walkLevels_gives 3 _

theorem translate_gives : Gives (u.translate (some ram) (some csr) va access.isWrite access.isFetch cause) pa ↔
    (∃ e, u.find (vpnOf va) (asidOf csr.satp) = some e ∧
      e.perms &&& needPerms access.isWrite access.isFetch = needPerms access.isWrite access.isFetch ∧
      physical e.ppn va = pa) ∨
    (¬ u.Cached csr va access ∧ u.slowAddr ram csr va access.isWrite access.isFetch = some pa) := by
  unfold translate tlbLookup Cached
  simp only [Option.map_some,Option.getD_some]
  cases found : u.find (vpnOf va) (asidOf csr.satp) with
  | none =>
    have slow := slow_gives {u with misses := u.misses+1} ram csr va pa access cause
    have counted : ({u with misses := u.misses+1} : MMU).slowAddr ram csr va access.isWrite access.isFetch =
      u.slowAddr ram csr va access.isWrite access.isFetch := rfl
    rw [counted] at slow
    simpa using slow
  | some e =>
    by_cases usable : e.perms &&& needPerms access.isWrite access.isFetch = needPerms access.isWrite access.isFetch
    · simp [usable,Gives]
    · simp only [usable,if_false]
      have slow := slow_gives u ram csr va pa access cause
      simpa [usable] using slow

theorem Fills.truthful {vb : Word} (fills : u.Fills ram csr vb e) (page : vpnOf va = e.vpn)
    (usable : e.perms &&& needPerms access.isWrite access.isFetch = needPerms access.isWrite access.isFetch) :
    u.slowAddr ram csr va access.isWrite access.isFetch = some (physical e.ppn va) := by
  unfold slowAddr
  cases fills with
  | bare bare mapped =>
    rw [if_pos bare]
    rw [← mapOf_page page] at mapped
    exact bareAddr_entry mapped access.single usable
  | walk paged leaf user =>
    rw [if_neg (by rw [paged]; decide)]
    rw [← leafOf_page page] at leaf
    exact walkAddr_entry leaf user access.single usable

theorem Translated.kept {u u' : MMU} (call : Translated ram csr u u') : Kept u u' := by
  cases call with
  | call va isWrite isFetch cause t ran => exact (translate_inv ran).1

theorem slowAddr_kept {u u' : MMU} (kept : Kept u u') (isWrite isFetch : Bool) :
    u'.slowAddr ram csr va isWrite isFetch = u.slowAddr ram csr va isWrite isFetch := by
  simp only [slowAddr,kept.1,kept.2]

theorem Truthful.translated {u u' : MMU} (truthful : Truthful ram csr u) (call : Translated ram csr u u') :
    Truthful ram csr u' := by
  have kept := call.kept
  intro k valid tag va access page usable
  rw [slowAddr_kept kept]
  cases call with
  | call vb isWrite isFetch cause t ran =>
    obtain ⟨_,effect⟩ := translate_inv ran
    rcases effect with ⟨_,_,_,unchanged⟩ | ⟨_,_,unchanged | ⟨slot,e,updated,fills⟩⟩
    · rw [unchanged] at valid tag page usable ⊢
      exact truthful k valid tag va access page usable
    · rw [unchanged] at valid tag page usable ⊢
      exact truthful k valid tag va access page usable
    · rw [updated] at valid tag page usable ⊢
      by_cases here : k = slot
      · rw [here,Function.update_self] at page usable ⊢
        exact fills.truthful page usable
      · rw [Function.update_of_ne here] at valid tag page usable ⊢
        exact truthful k valid tag va access page usable

theorem Emptied.truthful (emptied : u.Emptied) : Truthful ram csr u := by
  intro k valid
  rw [emptied k] at valid
  cases valid

theorem translated_run {u u' : MMU} (emptied : u.Emptied) (path : ReflTransGen (Translated ram csr) u u') :
    Kept u u' ∧ Truthful ram csr u' := by
  induction path with
  | refl => exact ⟨⟨rfl,rfl⟩,emptied.truthful⟩
  | tail _ call ih => exact ⟨ih.1.trans call.kept,ih.2.translated call⟩

theorem Truthful.gives (truthful : Truthful ram csr u) :
    Gives (u.translate (some ram) (some csr) va access.isWrite access.isFetch cause) pa ↔
      u.slowAddr ram csr va access.isWrite access.isFetch = some pa := by
  rw [translate_gives]
  constructor
  · rintro (⟨e,found,usable,rfl⟩ | ⟨_,answer⟩)
    · obtain ⟨k,rfl,valid,page,tag⟩ := find_some found
      exact truthful k valid tag va access page.symm usable
    · exact answer
  · intro answer
    by_cases cached : u.Cached csr va access
    · obtain ⟨e,found,usable⟩ := cached
      obtain ⟨k,rfl,valid,page,tag⟩ := find_some found
      have given := truthful k valid tag va access page.symm usable
      rw [answer,Option.some.injEq] at given
      exact .inl ⟨_,found,usable,given.symm⟩
    · exact .inr ⟨cached,answer⟩

theorem identityMap_perms {base : MMU} {vaBase paBase : Word} {pages : Nat} {perms : BitVec 8} {m : SimpleMap}
    (unmapped : mapOf base.simpleMap va = none)
    (mapped : mapOf (base.identityMap vaBase paBase pages perms).simpleMap va = some m) : m.perms = perms := by
  unfold mapOf at unmapped mapped
  unfold identityMap at mapped
  rw [List.find?_append,unmapped,Option.none_or] at mapped
  obtain ⟨i,_,rfl⟩ := List.mem_map.mp (List.mem_of_find?_eq_some mapped)
  rfl

theorem bare_page {m : SimpleMap} (satp : csr.satp = 0) (mapped : mapOf u.simpleMap va = some m) (p : Rights)
    (perms : m.perms = p.perms) : u.slowAddr ram csr va access.isWrite access.isFetch = some pa ↔
      (access = .read ∨ p.grants access = true) ∧ physical (m.ppn.zeroExtend 64) va = pa := by
  obtain ⟨write,execute⟩ := p.perms_bits
  have bare : (!u.enabled || csr.satp = 0) = true := by simp [satp]
  rw [slowAddr,if_pos bare,bareAddr,mapped,physical_map]
  dsimp only
  rw [perms,write,execute]
  cases access with
  | read => simp [Access.isWrite,Access.isFetch]
  | write => cases allowed : p.write <;> simp [Access.isWrite,Access.isFetch,Rights.grants,allowed]
  | fetch => cases allowed : p.execute <;> simp [Access.isWrite,Access.isFetch,Rights.grants,allowed]

theorem leaf_page {pte : PageTableEntry} {level : Nat} (enabled : u.enabled = true) (satp : csr.satp ≠ 0) (priv : csr.priv = .machine)
    (leaf : leafOf ram csr.satp va = some (pte,level)) : u.slowAddr ram csr va access.isWrite access.isFetch = some pa ↔
      (Rights.of pte).grants access = true ∧ physical pte.ppn va = pa := by
  have paged : ¬ (!u.enabled || csr.satp = 0) = true := by
    simp only [enabled,Bool.not_true,Bool.false_or,decide_eq_true_eq]
    exact satp
  rw [slowAddr,if_neg paged,walkAddr,leaf,Option.bind_some,PageTableEntry.permits_access,priv,PageTableEntry.grants_rights]
  cases (Rights.of pte).grants access <;> simp

end MMU

-- An MMU in bare mode whose page was mapped by `identity_map`, after calls of `translate`.
structure BarePage (va : Word) (p : Rights) (u : MMU) (ram : ByteStore) (csr : CSRFile) (ppn : Word) : Prop where
  satp : csr.satp = 0
  priv : csr.priv = .machine
  reached : ∃ (base : MMU) (vaBase paBase : Word) (pages : Nat) (m : SimpleMap), base.Emptied ∧
    mapOf base.simpleMap va = none ∧ mapOf (base.identityMap vaBase paBase pages p.perms).simpleMap va = some m ∧
    m.ppn = ppn ∧ ReflTransGen (MMU.Translated ram csr) (base.identityMap vaBase paBase pages p.perms) u

-- An MMU that walks page tables with a level-0 leaf for the page, after calls of `translate`.
structure LeafPage (va : Word) (p : Rights) (u : MMU) (ram : ByteStore) (csr : CSRFile) (ppn : Word) : Prop where
  satp : csr.satp ≠ 0
  priv : csr.priv = .machine
  leaf : ∃ pte, leafOf ram csr.satp va = some (pte,0) ∧ Rights.of pte = p ∧ pte.ppn = ppn.zeroExtend 64
  reached : ∃ base : MMU, base.enabled = true ∧ base.Emptied ∧ ReflTransGen (MMU.Translated ram csr) base u

section Pages
variable {va ppn pa : Word} {p : Rights} {u : MMU} {ram : ByteStore} {csr : CSRFile}

theorem BarePage.gives (page : BarePage va p u ram csr ppn) (access : Access) (cause : Option PageFaultCause) :
    Gives (u.translate (some ram) (some csr) va access.isWrite access.isFetch cause) pa ↔
      (access = .read ∨ p.grants access = true) ∧ physical (ppn.zeroExtend 64) va = pa := by
  obtain ⟨base,vaBase,paBase,pages,m,emptied,unmapped,mapped,rfl,path⟩ := page.reached
  have untouched : (base.identityMap vaBase paBase pages p.perms).Emptied := emptied
  obtain ⟨kept,truthful⟩ := MMU.translated_run untouched path
  have perms := MMU.identityMap_perms unmapped mapped
  rw [← kept.2] at mapped
  rw [truthful.gives]
  exact MMU.bare_page page.satp mapped p perms

theorem LeafPage.gives (page : LeafPage va p u ram csr ppn) (access : Access) (cause : Option PageFaultCause) :
    Gives (u.translate (some ram) (some csr) va access.isWrite access.isFetch cause) pa ↔
      p.grants access = true ∧ physical (ppn.zeroExtend 64) va = pa := by
  obtain ⟨base,enabled,emptied,path⟩ := page.reached
  obtain ⟨pte,leaf,rfl,frame⟩ := page.leaf
  obtain ⟨kept,truthful⟩ := MMU.translated_run emptied path
  rw [truthful.gives,MMU.leaf_page (kept.1.trans enabled) page.satp page.priv leaf,frame]

end Pages

-- The two agree on every page but for loads from one without R.
theorem same_permissions_iff (va ppn : Word) (p : Rights) (access : Access) (u u' : MMU) (ram ram' : ByteStore)
    (csr csr' : CSRFile) (cause cause' : Option PageFaultCause) (bare : BarePage va p u ram csr ppn)
    (leaf : LeafPage va p u' ram' csr' ppn) :
    (∀ pa, Gives (u.translate (some ram) (some csr) va access.isWrite access.isFetch cause) pa ↔
      Gives (u'.translate (some ram') (some csr') va access.isWrite access.isFetch cause') pa) ↔
      (access = .read → p.read = true) := by
  constructor
  · rintro agree rfl
    have given := (agree _).mp ((bare.gives .read cause).mpr ⟨.inl rfl,rfl⟩)
    exact ((leaf.gives .read cause').mp given).1
  · intro readable pa
    rw [bare.gives,leaf.gives]
    constructor
    · rintro ⟨read | granted,frame⟩
      · subst read
        exact ⟨readable rfl,frame⟩
      · exact ⟨granted,frame⟩
    · rintro ⟨granted,frame⟩
      exact ⟨.inr granted,frame⟩

-- The page at 0x1000 with frame 1, by the simple map and by a table that is its own
-- first and second level.
def mappedMmu (p : Rights) : MMU := pagedMmu.identityMap 0x1000 0x1000 1 p.perms
def selfTable (p : Rights) : ByteStore :=
  ⟨4096,fun a => if a = 0 then 1 else if a = 8 then 1 ||| (p.perms <<< 1) else if a = 9 then 4 else 0⟩

theorem mapped_bare (p : Rights) (u : MMU) (path : ReflTransGen (MMU.Translated noTables .initial) (mappedMmu p) u) :
    BarePage 0x1004 p u noTables .initial 1 :=
  ⟨by decide +kernel,rfl,pagedMmu,0x1000,0x1000,1,⟨1,1,p.perms,true⟩,fun _ => rfl,rfl,rfl,rfl,path⟩

theorem selfTable_leaf (p : Rights) (raw : DWord) (leaf : leafOf (selfTable p) pagedCsr.satp 0x1004 = some (⟨raw⟩,0))
    (rights : Rights.of ⟨raw⟩ = p) (frame : PageTableEntry.ppn ⟨raw⟩ = 1) : LeafPage 0x1004 p pagedMmu (selfTable p) pagedCsr 1 :=
  ⟨by decide +kernel,by decide +kernel,⟨⟨raw⟩,leaf,rights,frame⟩,pagedMmu,rfl,fun _ => rfl,.refl⟩

-- A fetch from an executable page, in bare mode after a load has filled the TLB.
theorem same_permissions_fetch : ∃ u : MMU, u.Cached .initial 0x1004 .fetch ∧
    ∀ pa, Gives (u.translate (some noTables) (some .initial) 0x1004 false true none) pa ↔
      Gives (pagedMmu.translate (some (selfTable ⟨true,false,true⟩)) (some pagedCsr) 0x1004 false true none) pa := by
  have fills : ((mappedMmu ⟨true,false,true⟩).translate (some noTables) (some .initial) 0x1004 false false none).any
      (fun t => (t.mmu.find 1 0).any fun e => e.perms &&& 4 = 4) = true := by decide +kernel
  obtain ⟨t,ran,cached⟩ := (Option.any_eq_true _ _).mp fills
  obtain ⟨e,found,usable⟩ := (Option.any_eq_true _ _).mp cached
  have bare := mapped_bare ⟨true,false,true⟩ t.mmu (.single (.call _ _ _ _ _ _ ran))
  have leaf := selfTable_leaf ⟨true,false,true⟩ 0x40B (by decide +kernel) (by decide +kernel) (by decide +kernel)
  refine ⟨t.mmu,⟨e,?_,of_decide_eq_true usable⟩,?_⟩
  · rw [show vpnOf 0x1004 = 1 by decide,show asidOf CSRFile.initial.satp = 0 by decide +kernel]
    exact found
  · exact (same_permissions_iff 0x1004 1 ⟨true,false,true⟩ .fetch t.mmu pagedMmu noTables _ .initial pagedCsr none none bare leaf).mpr
      (fun impossible => by cases impossible)

-- A load from an execute-only page.
theorem execute_only_read : ¬ ∀ (va ppn : Word) (p : Rights) (access : Access) (u u' : MMU) (ram ram' : ByteStore)
    (csr csr' : CSRFile) (cause cause' : Option PageFaultCause), BarePage va p u ram csr ppn →
      LeafPage va p u' ram' csr' ppn →
      ∀ pa, Gives (u.translate (some ram) (some csr) va access.isWrite access.isFetch cause) pa ↔
        Gives (u'.translate (some ram') (some csr') va access.isWrite access.isFetch cause') pa := by
  intro agree
  have bare := mapped_bare ⟨false,false,true⟩ _ .refl
  have leaf := selfTable_leaf ⟨false,false,true⟩ 0x409 (by decide +kernel) (by decide +kernel) (by decide +kernel)
  have same := agree 0x1004 1 ⟨false,false,true⟩ .read _ _ _ _ _ _ (some .none) (some .none) bare leaf 0x1004
  have loaded := same.mp ((bare.gives .read (some .none)).mpr ⟨.inl rfl,by decide +kernel⟩)
  exact absurd ((leaf.gives .read (some .none)).mp loaded).1 (by decide)

end Novium
