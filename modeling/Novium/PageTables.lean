import Novium.Mmu

namespace Novium
open Storage

namespace MMU
variable {u : MMU} {ram : Option ByteStore} {csr : Option CSRFile} {va : Word} {isWrite isFetch : Bool}
  {cause : Option PageFaultCause} {t : Translation}

-- What translation never touches: the enable flag and the simple map.
def Kept (u u' : MMU) : Prop := u'.enabled = u.enabled ∧ u'.simpleMap = u.simpleMap

theorem Kept.trans {a b c : MMU} (ab : Kept a b) (bc : Kept b c) : Kept a c :=
  ⟨bc.1.trans ab.1,bc.2.trans ab.2⟩

theorem tlbLookup_kept (need : BitVec 8) : Kept u (u.tlbLookup csr va need).1 := by
  unfold tlbLookup
  split
  · split <;> exact ⟨rfl,rfl⟩
  · exact ⟨rfl,rfl⟩

theorem bare_kept : Kept u (u.bare va isWrite isFetch cause).mmu := by
  unfold bare
  split
  · exact ⟨rfl,rfl⟩
  · split
    · exact ⟨rfl,rfl⟩
    · split <;> exact ⟨rfl,rfl⟩

-- With a pointer to write the cause through, a fault is always reported.
theorem faultVia_some (c d : PageFaultCause) : u.faultVia va (some d) c = some (u.fault va (some d) c) := rfl

theorem walkLeaf_total (c : CSRFile) (d : PageFaultCause) (pte : PageTableEntry) :
    ∃ t, u.walkLeaf c va isWrite isFetch (some d) pte = some t ∧ Kept u t.mmu := by
  unfold walkLeaf
  simp only [faultVia_some]
  split
  · exact ⟨_,rfl,rfl,rfl⟩
  · split
    · exact ⟨_,rfl,rfl,rfl⟩
    · split
      · exact ⟨_,rfl,rfl,rfl⟩
      · split
        · exact ⟨_,rfl,rfl,rfl⟩
        · exact ⟨_,rfl,rfl,rfl⟩

theorem walkLevels_total (r : ByteStore) (c : CSRFile) (d : PageFaultCause) (level : Nat) (ppn : DWord) :
    ∃ t, u.walkLevels r c va isWrite isFetch (some d) level ppn = some t ∧ Kept u t.mmu := by
  induction level generalizing ppn with
  | zero => exact ⟨_,rfl,rfl,rfl⟩
  | succ level ih =>
    unfold walkLevels
    dsimp only
    split
    · exact ⟨_,rfl,rfl,rfl⟩
    · split
      · exact ⟨_,rfl,rfl,rfl⟩
      · split
        · exact walkLeaf_total c d _
        · exact ih _

theorem translate_total (u : MMU) (ram : Option ByteStore) (csr : Option CSRFile) (va : Word)
    (isWrite isFetch : Bool) (d : PageFaultCause) :
    ∃ t, u.translate ram csr va isWrite isFetch (some d) = some t ∧ Kept u t.mmu := by
  have looked : Kept u (u.tlbLookup csr va (needPerms isWrite isFetch)).1 := tlbLookup_kept _
  unfold translate
  split
  · rename_i found
    rw [found] at looked
    exact ⟨_,rfl,looked⟩
  · rename_i missed
    rw [missed] at looked
    split
    · exact ⟨_,rfl,looked.trans bare_kept⟩
    · unfold walk
      split
      · obtain ⟨t,walked,kept⟩ := walkLevels_total _ _ d 3 _
        exact ⟨t,walked,looked.trans kept⟩
      · exact ⟨_,rfl,looked⟩

end MMU

theorem page_eq {va vb : Word} (same : vpnOf va = vpnOf vb) : va >>> pageShift = vb >>> pageShift := by
  have widened := congrArg BitVec.toNat same
  simp only [vpnOf,BitVec.zeroExtend_eq_setWidth,BitVec.toNat_setWidth_of_le (by decide : 32 ≤ 64)] at widened
  exact BitVec.eq_of_toNat_eq widened

theorem vpnLevel_eq {va vb : Word} (same : va >>> pageShift = vb >>> pageShift) (level : Nat) :
    vpnLevel va level = vpnLevel vb level := by
  simp only [vpnLevel,BitVec.shiftRight_add]
  rw [same]

def findLeaf (ram : ByteStore) (va : Word) : Nat → DWord → Option (PageTableEntry × Nat)
  | 0,_ => none
  | level+1,curPpn =>
    let pteAddr := curPpn*pageSize + vpnLevel va level*8
    if ram.size < pteAddr.toNat+8 then none
    else
      let pte : PageTableEntry := ⟨ram.dword (pteAddr.truncate 32).toNat⟩
      if !pte.valid then none
      else if pte.isLeaf then some (pte,level)
      else findLeaf ram va level pte.ppn

def leafOf (ram : ByteStore) (satp : DWord) (va : Word) : Option (PageTableEntry × Nat) :=
  findLeaf ram va 3 (satp &&& 0xFFFFFFFFFFF)

theorem findLeaf_page {ram : ByteStore} {va vb : Word} (same : va >>> pageShift = vb >>> pageShift) (level : Nat)
    (curPpn : DWord) : findLeaf ram va level curPpn = findLeaf ram vb level curPpn := by
  induction level generalizing curPpn with
  | zero => rfl
  | succ level ih => simp only [findLeaf,vpnLevel_eq same,ih]

def PageTableEntry.permits (pte : PageTableEntry) (priv : PrivilegeLevel) (isWrite isFetch : Bool) : Bool :=
  (!isWrite || pte.write) && (!isFetch || pte.execute) && (isWrite || isFetch || pte.read) &&
    !(priv = .user && !pte.user)

theorem PageTableEntry.permits_iff {pte : PageTableEntry} {priv : PrivilegeLevel} {isWrite isFetch : Bool} :
    pte.permits priv isWrite isFetch = true ↔ (isWrite = true → pte.write = true) ∧
      (isFetch = true → pte.execute = true) ∧ (isWrite = false → isFetch = false → pte.read = true) ∧
      (priv = .user → pte.user = true) := by
  have user : (!(priv = .user && !pte.user)) = true ↔ (priv = .user → pte.user = true) := by
    by_cases lowest : priv = .user <;> simp [lowest]
  unfold permits
  rw [Bool.and_eq_true,user]
  cases isWrite <;> cases isFetch <;> simp [and_assoc]

-- What the page tables alone say about an access.
def walkAddr (ram : ByteStore) (satp : DWord) (priv : PrivilegeLevel) (va : Word) (isWrite isFetch : Bool) : Option Word :=
  (leafOf ram satp va).bind fun leaf =>
    if leaf.1.permits priv isWrite isFetch then some (physical leaf.1.ppn va) else none

def mapOf (simpleMap : List SimpleMap) (va : Word) : Option SimpleMap :=
  simpleMap.find? fun m => m.valid && m.vpn == va >>> pageShift

-- What the simple map alone says in bare mode.
def bareAddr (simpleMap : List SimpleMap) (va : Word) (isWrite isFetch : Bool) : Option Word :=
  match mapOf simpleMap va with
  | none => some va
  | some m => if (!isWrite || m.perms.getLsbD 1) && (!isFetch || m.perms.getLsbD 2) then
      some ((m.ppn <<< pageShift) ||| (va &&& 0xFFF)) else none

namespace MMU
variable {u : MMU} {ram : ByteStore} {csr : CSRFile} {va : Word} {isWrite isFetch : Bool}

-- The answer of the slow path, whatever the TLB holds.
def slowAddr (u : MMU) (ram : ByteStore) (csr : CSRFile) (va : Word) (isWrite isFetch : Bool) : Option Word :=
  if !u.enabled || csr.satp = 0 then bareAddr u.simpleMap va isWrite isFetch
  else walkAddr ram csr.satp csr.priv va isWrite isFetch

-- The entry a successful slow path puts into the TLB.
inductive Fills (u : MMU) (ram : ByteStore) (csr : CSRFile) (va : Word) : TLBEntry → Prop where
  | bare : (!u.enabled || csr.satp = 0) = true → mapOf u.simpleMap va = some m →
      Fills u ram csr va ⟨vpnOf va,m.ppn.zeroExtend 64,m.perms,true,0⟩
  | walk : (!u.enabled || csr.satp = 0) = false → leafOf ram csr.satp va = some (pte,level) →
      (csr.priv = .user → pte.user = true) →
      Fills u ram csr va ⟨vpnOf va,pte.ppn,pte.perms,true,asidOf csr.satp⟩

def Filled (u : MMU) (ram : ByteStore) (csr : CSRFile) (va : Word) (u' : MMU) : Prop :=
  u'.tlb = u.tlb ∨ ∃ k e, u'.tlb = Function.update u.tlb k e ∧ u.Fills ram csr va e

def Answers (u : MMU) (ram : ByteStore) (csr : CSRFile) (va : Word) (answer : Option Word) (t : Translation) : Prop :=
  t.pa = answer ∧ u.Filled ram csr va t.mmu

theorem walkLeaf_answers (d : PageFaultCause) {pte : PageTableEntry} {level : Nat}
    (mapped : (!u.enabled || csr.satp = 0) = false) (leaf : leafOf ram csr.satp va = some (pte,level)) :
    ∃ t, u.walkLeaf csr va isWrite isFetch (some d) pte = some t ∧
      u.Answers ram csr va (walkAddr ram csr.satp csr.priv va isWrite isFetch) t := by
  have verdict : walkAddr ram csr.satp csr.priv va isWrite isFetch =
      if pte.permits csr.priv isWrite isFetch then some (physical pte.ppn va) else none := by
    simp only [walkAddr,leaf,Option.bind_some]
  have denied : ∀ {t : Translation}, pte.permits csr.priv isWrite isFetch = false → t.pa = none → t.mmu.tlb = u.tlb →
      u.Answers ram csr va (walkAddr ram csr.satp csr.priv va isWrite isFetch) t := by
    intro t refused none same
    rw [verdict,refused]
    exact ⟨none,.inl same⟩
  unfold walkLeaf
  split
  · exact ⟨_,rfl,denied (by simp_all [PageTableEntry.permits]) rfl rfl⟩
  · split
    · exact ⟨_,rfl,denied (by simp_all [PageTableEntry.permits]) rfl rfl⟩
    · split
      · exact ⟨_,rfl,denied (by simp_all [PageTableEntry.permits]) rfl rfl⟩
      · split
        · exact ⟨_,rfl,denied (by simp_all [PageTableEntry.permits]) rfl rfl⟩
        · rename_i allowed
          have user : csr.priv = .user → pte.user = true := by
            intro lowest
            simpa [lowest] using allowed
          have granted : pte.permits csr.priv isWrite isFetch = true := by
            rw [PageTableEntry.permits_iff]
            exact ⟨by simp_all,by simp_all,by simp_all,user⟩
          refine ⟨_,rfl,?_,.inr ⟨_,_,rfl,.walk mapped leaf user⟩⟩
          rw [verdict,granted]
          rfl

theorem walkLevels_leaf (u : MMU) (ram : ByteStore) (csr : CSRFile) (va : Word) (isWrite isFetch : Bool)
    (d : PageFaultCause) (level : Nat) (curPpn : DWord) :
    match findLeaf ram va level curPpn with
    | some (pte,_) => u.walkLevels ram csr va isWrite isFetch (some d) level curPpn =
        u.walkLeaf csr va isWrite isFetch (some d) pte
    | none => ∃ t, u.walkLevels ram csr va isWrite isFetch (some d) level curPpn = some t ∧ t.pa = none ∧
        t.mmu.tlb = u.tlb := by
  induction level generalizing curPpn with
  | zero => exact ⟨_,rfl,rfl,rfl⟩
  | succ level ih =>
    unfold findLeaf walkLevels
    dsimp only
    by_cases outside : ram.size < (curPpn*pageSize + vpnLevel va level*8).toNat+8
    · simp only [outside,if_true]
      exact ⟨_,rfl,rfl,rfl⟩
    · simp only [outside,if_false]
      generalize (⟨ram.dword _⟩ : PageTableEntry) = pte
      cases valid : pte.valid with
      | false => exact ⟨_,rfl,rfl,rfl⟩
      | true =>
        cases leaf : pte.isLeaf with
        | true => rfl
        | false => exact ih _

theorem walk_answers (d : PageFaultCause) (mapped : (!u.enabled || csr.satp = 0) = false) :
    ∃ t, u.walk (some ram) (some csr) va isWrite isFetch (some d) = some t ∧
      u.Answers ram csr va (walkAddr ram csr.satp csr.priv va isWrite isFetch) t := by
  have followed := walkLevels_leaf u ram csr va isWrite isFetch d 3 (csr.satp &&& 0xFFFFFFFFFFF)
  change ∃ t, u.walkLevels ram csr va isWrite isFetch (some d) 3 (csr.satp &&& 0xFFFFFFFFFFF) = some t ∧ _
  cases leaf : leafOf ram csr.satp va with
  | none =>
    rw [show findLeaf ram va 3 (csr.satp &&& 0xFFFFFFFFFFF) = none from leaf] at followed
    obtain ⟨t,walked,failed,same⟩ := followed
    refine ⟨t,walked,?_,.inl same⟩
    rw [failed,walkAddr,leaf,Option.bind_none]
  | some found =>
    rw [show findLeaf ram va 3 (csr.satp &&& 0xFFFFFFFFFFF) = some found from leaf] at followed
    dsimp only at followed
    rw [followed]
    exact walkLeaf_answers d mapped leaf

theorem bare_answers (cause : Option PageFaultCause) (bare : (!u.enabled || csr.satp = 0) = true) :
    u.Answers ram csr va (bareAddr u.simpleMap va isWrite isFetch) (u.bare va isWrite isFetch cause) := by
  unfold MMU.bare bareAddr
  cases found : mapOf u.simpleMap va with
  | none =>
    rw [show u.simpleMap.find? (fun m => m.valid && m.vpn == va >>> pageShift) = none from found]
    exact ⟨rfl,.inl rfl⟩
  | some m =>
    rw [show u.simpleMap.find? (fun m => m.valid && m.vpn == va >>> pageShift) = some m from found]
    dsimp only
    cases write : isWrite && !m.perms.getLsbD 1 with
    | true =>
      refine ⟨?_,.inl rfl⟩
      simp_all [fault]
    | false =>
      cases execute : isFetch && !m.perms.getLsbD 2 with
      | true =>
        refine ⟨?_,.inl rfl⟩
        simp_all [fault]
      | false =>
        refine ⟨?_,.inr ⟨_,_,rfl,.bare bare found⟩⟩
        cases isWrite <;> cases isFetch <;> simp_all

theorem slow_answers (d : PageFaultCause) :
    ∃ t, (if !u.enabled || csr.satp = 0 then some (u.bare va isWrite isFetch (some d))
      else u.walk (some ram) (some csr) va isWrite isFetch (some d)) = some t ∧
      u.Answers ram csr va (u.slowAddr ram csr va isWrite isFetch) t := by
  unfold slowAddr
  cases bare : !u.enabled || csr.satp = 0 with
  | true => exact ⟨_,rfl,bare_answers _ bare⟩
  | false => exact walk_answers d bare

theorem Answers.of_counted {answer : Option Word} {t : Translation} {misses : Nat}
    (answers : ({u with misses := misses} : MMU).Answers ram csr va answer t) : u.Answers ram csr va answer t := by
  rcases answers with ⟨pa,same | ⟨k,e,same,fills⟩⟩
  · exact ⟨pa,.inl same⟩
  · refine ⟨pa,.inr ⟨k,e,same,?_⟩⟩
    cases fills with
    | bare bare found => exact .bare bare found
    | walk mapped leaf user => exact .walk mapped leaf user

-- Every translation: a usable TLB entry answers, otherwise the slow path does.
inductive Translates (u : MMU) (ram : ByteStore) (csr : CSRFile) (va : Word) (isWrite isFetch : Bool)
    (t : Translation) : Prop where
  | hit : u.find (vpnOf va) (asidOf csr.satp) = some e →
      e.perms &&& needPerms isWrite isFetch = needPerms isWrite isFetch →
      t.pa = some (physical e.ppn va) → t.mmu.tlb = u.tlb → Translates u ram csr va isWrite isFetch t
  | slow : (∀ e, u.find (vpnOf va) (asidOf csr.satp) = some e →
        e.perms &&& needPerms isWrite isFetch ≠ needPerms isWrite isFetch) →
      u.Answers ram csr va (u.slowAddr ram csr va isWrite isFetch) t → Translates u ram csr va isWrite isFetch t

theorem translate_cases (u : MMU) (ram : ByteStore) (csr : CSRFile) (va : Word) (isWrite isFetch : Bool)
    (d : PageFaultCause) : ∃ t, u.translate (some ram) (some csr) va isWrite isFetch (some d) = some t ∧
      u.Translates ram csr va isWrite isFetch t := by
  unfold translate tlbLookup
  simp only [Option.map_some,Option.getD_some]
  cases found : u.find (vpnOf va) (asidOf csr.satp) with
  | none =>
    obtain ⟨t,ran,answers⟩ := slow_answers (u := {u with misses := u.misses+1}) d
    refine ⟨t,ran,.slow ?_ answers.of_counted⟩
    intro e cached
    rw [found] at cached
    cases cached
  | some e =>
    by_cases usable : e.perms &&& needPerms isWrite isFetch = needPerms isWrite isFetch
    · simp only [usable,if_true]
      exact ⟨_,rfl,.hit found usable rfl rfl⟩
    · simp only [usable,if_false]
      obtain ⟨t,ran,answers⟩ := slow_answers (u := u) d
      refine ⟨t,ran,.slow ?_ answers⟩
      intro e' cached
      rw [found] at cached
      cases cached
      exact usable

-- A call without a cause pointer, where it returns, does what a call with one does.
theorem walkLeaf_pointer {d : PageFaultCause} {pte : PageTableEntry} {t : Translation}
    (ran : u.walkLeaf csr va isWrite isFetch none pte = some t) :
    ∃ t', u.walkLeaf csr va isWrite isFetch (some d) pte = some t' ∧ t'.mmu = t.mmu ∧ t'.pa = t.pa := by
  unfold walkLeaf at ran ⊢
  split at ran
  · cases ran
  · rename_i write
    rw [if_neg write]
    split at ran
    · cases ran
    · rename_i execute
      rw [if_neg execute]
      split at ran
      · cases ran
      · rename_i read
        rw [if_neg read]
        split at ran
        · rename_i user
          rw [if_pos user]
          cases ran
          exact ⟨_,rfl,rfl,rfl⟩
        · rename_i user
          rw [if_neg user]
          cases ran
          exact ⟨_,rfl,rfl,rfl⟩

theorem walkLevels_pointer {d : PageFaultCause} {level : Nat} {curPpn : DWord} {t : Translation}
    (ran : u.walkLevels ram csr va isWrite isFetch none level curPpn = some t) :
    ∃ t', u.walkLevels ram csr va isWrite isFetch (some d) level curPpn = some t' ∧ t'.mmu = t.mmu ∧ t'.pa = t.pa := by
  induction level generalizing curPpn with
  | zero => cases ran
  | succ level ih =>
    unfold walkLevels at ran ⊢
    dsimp only at ran ⊢
    split at ran
    · rename_i outside
      cases ran
      rw [if_pos outside]
      exact ⟨_,rfl,rfl,rfl⟩
    · rename_i inside
      rw [if_neg inside]
      split at ran
      · cases ran
      · rename_i valid
        rw [if_neg valid]
        split at ran
        · rename_i leaf
          rw [if_pos leaf]
          exact walkLeaf_pointer ran
        · rename_i pointer
          rw [if_neg pointer]
          exact ih ran

theorem bare_pointer (d : PageFaultCause) : (u.bare va isWrite isFetch (some d)).mmu = (u.bare va isWrite isFetch none).mmu ∧
    (u.bare va isWrite isFetch (some d)).pa = (u.bare va isWrite isFetch none).pa := by
  unfold bare
  split
  · exact ⟨rfl,rfl⟩
  · split
    · exact ⟨rfl,rfl⟩
    · split <;> exact ⟨rfl,rfl⟩

theorem translate_pointer {cause : Option PageFaultCause} {t : Translation}
    (ran : u.translate (some ram) (some csr) va isWrite isFetch cause = some t) :
    ∃ d t', u.translate (some ram) (some csr) va isWrite isFetch (some d) = some t' ∧ t'.mmu = t.mmu ∧ t'.pa = t.pa := by
  cases cause with
  | some d => exact ⟨d,t,ran,rfl,rfl⟩
  | none =>
    refine ⟨.none,?_⟩
    unfold translate at ran ⊢
    split at ran
    · cases ran
      exact ⟨_,rfl,rfl,rfl⟩
    · split at ran
      · rename_i bare
        rw [if_pos bare]
        cases ran
        exact ⟨_,rfl,bare_pointer .none⟩
      · rename_i walked
        rw [if_neg walked]
        exact walkLevels_pointer ran

theorem translate_inv {cause : Option PageFaultCause} {t : Translation}
    (ran : u.translate (some ram) (some csr) va isWrite isFetch cause = some t) :
    Kept u t.mmu ∧ u.Translates ram csr va isWrite isFetch t := by
  obtain ⟨d,t',ran',mmu,pa⟩ := translate_pointer ran
  obtain ⟨_,same,kept⟩ := translate_total u (some ram) (some csr) va isWrite isFetch d
  rw [ran'] at same
  cases same
  obtain ⟨_,same,effect⟩ := u.translate_cases ram csr va isWrite isFetch d
  rw [ran'] at same
  cases same
  rw [mmu] at kept
  refine ⟨kept,?_⟩
  cases effect with
  | hit found usable answer unchanged =>
    rw [pa] at answer
    rw [mmu] at unchanged
    exact .hit found usable answer unchanged
  | slow missed answers =>
    unfold Answers at answers
    rw [pa,mmu] at answers
    exact .slow missed answers

end MMU
end Novium
