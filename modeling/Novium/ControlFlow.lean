import Novium.StraightLine

namespace Novium
open Storage Effects TranslationEngine

-- The byte offset a taken BEQ or BNE adds to the advanced pc: the guest's distance,
-- counted in words and not scaled back to bytes.
theorem branch_words {off : BitVec 13} {d : Int} (distance : off.toInt = 4*d) :
    ((((off.signExtend 32-4).sdiv 4).truncate 16 : BitVec 16).signExtend 32 : Word) = BitVec.ofInt 32 (d-1) := by
  have low := BitVec.le_toInt off
  have high := BitVec.toInt_lt (x := off)
  have back : (off.signExtend 32-4).toInt = 4*d-4 := by
    rw [BitVec.toInt_sub,BitVec.toInt_signExtend_of_le (by decide),distance]
    change Int.bmod (4*d-4) (2^32) = _
    rw [Int.bmod_def]
    omega
  have words : (off.signExtend 32-4).sdiv 4 = BitVec.ofInt 32 (d-1) := by
    apply BitVec.eq_of_toInt_eq
    rw [BitVec.toInt_sdiv,back,BitVec.toInt_ofInt]
    change Int.bmod ((4*d-4).tdiv 4) _ = _
    rw [show 4*d-4 = (d-1)*4 by omega,Int.mul_tdiv_cancel _ (by decide)]
  rw [words]
  apply BitVec.eq_of_toInt_eq
  rw [BitVec.toInt_signExtend_of_le (by decide),BitVec.truncate_eq_setWidth,BitVec.toInt_setWidth,BitVec.toNat_ofInt,
    BitVec.toInt_ofInt,Int.bmod_def,Int.bmod_def]
  omega

-- The absolute target of a lowered JAL: the guest's distance cut to the target field.
theorem jump_target (off : BitVec 21) :
    (((off.signExtend 32 &&& targetMask).truncate 26 : BitVec 26).zeroExtend 32 : Word).toNat = (off.toInt%2^26).toNat := by
  have masked : ((off.signExtend 32 &&& targetMask).truncate 26 : BitVec 26) = (off.signExtend 32).truncate 26 := by
    ext k inside
    unfold targetMask
    interval_cases k <;> simp
  rw [masked]
  simp only [BitVec.truncate_eq_setWidth,BitVec.toNat_setWidth]
  unfold BitVec.signExtend
  rw [BitVec.toNat_ofInt]
  omega

def emittedBefore (words : List Word) (k : Nat) : Nat := ((words.take k).flatMap lowered).length

theorem lowered_size (w : Word) : (lowered w).length = 1 ∨ (lowered w).length = 2 := by
  unfold lowered
  cases accepted : translateOneRiscv w with
  | none => exact .inl rfl
  | some tmp => exact translateOneRiscv_size accepted

section Layout
variable {words : List Word} {i j n : Nat} {w : Word}

theorem emittedBefore_succ (listed : words[i]? = some w) :
    emittedBefore words (i+1) = emittedBefore words i+(lowered w).length := by
  unfold emittedBefore
  rw [List.take_add_one,listed,List.flatMap_append,List.length_append]
  simp

theorem emittedBefore_grows (inside : i+n ≤ words.length) :
    emittedBefore words i+n ≤ emittedBefore words (i+n) ∧ emittedBefore words (i+n) ≤ emittedBefore words i+2*n := by
  induction n with
  | zero => exact ⟨Nat.le_refl _,Nat.le_refl _⟩
  | succ n ih =>
    obtain ⟨low,high⟩ := ih (by omega)
    have listed : words[i+n]? = some words[i+n] := List.getElem?_eq_getElem (by omega)
    have next := emittedBefore_succ listed
    rw [show i+(n+1) = i+n+1 from rfl,next]
    rcases lowered_size words[i+n] with one | two
    · omega
    · omega

theorem emittedBefore_exact : (emittedBefore words j = min j words.length ↔ ∀ v ∈ words.take j, (lowered v).length = 1) := by
  unfold emittedBefore
  rw [← List.length_take]
  generalize words.take j = front
  induction front with
  | nil => simp
  | cons v rest ih =>
    have shortest : rest.length ≤ (rest.flatMap lowered).length := by
      clear ih
      induction rest with
      | nil => exact Nat.le_refl _
      | cons u rest ih =>
        rw [List.flatMap_cons,List.length_append,List.length_cons]
        rcases lowered_size u with one | two
        · omega
        · omega
    rw [List.flatMap_cons,List.length_append,List.length_cons,List.forall_mem_cons,← ih]
    rcases lowered_size v with one | two
    · omega
    · omega

theorem lowered_placed (listed : words[i]? = some w) : Placed (words.flatMap lowered) (emittedBefore words i) (lowered w) := by
  have short : i < words.length := (List.getElem?_eq_some_iff.mp listed).1
  have split : words.flatMap lowered = (words.take i).flatMap lowered ++ (lowered w ++ (words.drop (i+1)).flatMap lowered) := by
    conv_lhs => rw [← List.take_append_drop i words,List.flatMap_append,List.drop_eq_getElem_cons short,List.flatMap_cons]
    rw [(List.getElem?_eq_some_iff.mp listed).2]
  intro k v found
  unfold emittedBefore
  rw [split,List.getElem?_append_right (Nat.le_add_right _ k),Nat.add_sub_cancel_left,
    List.getElem?_append_left (List.getElem?_eq_some_iff.mp found).1]
  exact found

end Layout

-- The machine is about to execute the words of the i-th guest word, with the whole
-- output loaded at address 0.
structure Stands (words : List Word) (i : Nat) (m : Machine) : Prop where
  loaded : Loaded 0 (translateBytes .riscv64 (words.flatMap wordBytes)).1 m.scratchpad
  pc : m.regs.pc.toNat = 4*emittedBefore words i
  running : m.regs.halt = false
  untranslated : m.mmu.enabled = false
  undeliverable : m.csr.mstatusMie = false ∨ m.csr.read csrMie = 0

def Lands (h : Host) (words : List Word) (m : Machine) (j : Nat) : Prop :=
  ∃ m', step h m = .ok () m' ∧ m'.regs.pc.toNat = 4*emittedBefore words j

section Transfers
variable {h : Host} {words : List Word} {i j : Nat} {w : Word} {m : Machine}

theorem Stands.code (stands : Stands words i m) : Loaded 0 (words.flatMap lowered) m.scratchpad := by
  rw [← translateBytes_riscv]
  exact stands.loaded

theorem lands_iff {v : Word} {c' : Core} (stands : Stands words i m) (listed : (words.flatMap lowered)[emittedBefore words i]? = some v)
    (takes : Takes h ⟨v⟩ m.core.advance c') : Lands h words m j ↔ c'.regs.pc.toNat = 4*emittedBefore words j := by
  have loaded := stands.code
  have inside := loaded.inside
  have below := loaded.below
  have short := (List.getElem?_eq_some_iff.mp listed).1
  have word := loaded.words _ _ listed
  have pc := stands.pc
  have below : m.regs.pc.toNat < mmioBase.toNat := by omega
  have fits : m.regs.pc.toNat+4 ≤ m.scratchpad.size := by omega
  have read : m.scratchpad.word m.regs.pc.toNat = v := by rw [pc,← word,Nat.zero_add]
  have plain : m.core.Plain := ⟨stands.untranslated,stands.undeliverable⟩
  have fetches : m.core.Fetches ⟨v⟩ := ⟨stands.running,BitVec.lt_def.mpr below,fits,read⟩
  obtain ⟨m',stepped,core⟩ := takes.steps plain fetches m rfl
  have final : m'.regs.pc = c'.regs.pc := congrArg (fun c => c.regs.pc) core
  rw [← final]
  constructor
  · intro lands
    obtain ⟨m'',again,there⟩ := lands
    have same : m' = m'' := by
      rw [stepped] at again
      injection again
    rw [same]
    exact there
  · intro there
    exact ⟨m',stepped,there⟩

inductive Branches (w : Word) (m : Machine) (off : BitVec 13) (taken : Bool) : Prop where
  | beq (rs1 rs2 : Rv32.Reg) : Rv32.decode w = some (.beq rs1 rs2 off) →
      (m.regs.get (gprOf rs1) == m.regs.get (gprOf rs2)) = taken → Branches w m off taken
  | bne (rs1 rs2 : Rv32.Reg) : Rv32.decode w = some (.bne rs1 rs2 off) →
      (m.regs.get (gprOf rs1) != m.regs.get (gprOf rs2)) = taken → Branches w m off taken

theorem btype_lands {op : Opcode} {rs1 rs2 : Rv32.Reg} {off : BitVec 16} {goes : Word → Word → Bool} (stands : Stands words i m)
    (listed : words[i]? = some w) (emitted : lowered w = [Enc.btype op (host rs1) (host rs2) off])
    (dispatched : ∀ ins, handler h op ins = onRegs (Handlers.branch op goes ins)) : (lowered w).length = 1 ∧ (Lands h words m j ↔
      (if goes (m.regs.get (gprOf rs1)) (m.regs.get (gprOf rs2)) then m.regs.pc+4+off.signExtend 32 else m.regs.pc+4).toNat =
        4*emittedBefore words j) := by
  have first := lowered_placed listed
  rw [emitted] at first
  have takes := takes_branch (h := h) (c := m.core.advance) (a := gprOf rs1) (b := gprOf rs2) (Enc.btype_opcode ..)
    (dispatched ⟨Enc.btype op (host rs1) (host rs2) off⟩) (by rw [Enc.btype_rd,host_gprOf]) (by rw [Enc.btype_ra,host_gprOf])
  rw [Enc.btype_offset] at takes
  rw [emitted,lands_iff stands (first 0 _ rfl) takes]
  exact ⟨rfl,Iff.rfl⟩

theorem branch_lands {off : BitVec 13} {taken : Bool} (stands : Stands words i m) (listed : words[i]? = some w)
    (branches : Branches w m off taken) : (lowered w).length = 1 ∧ (Lands h words m j ↔
      (if taken then m.regs.pc+4+(((off.signExtend 32-4).sdiv 4).truncate 16 : BitVec 16).signExtend 32 else m.regs.pc+4).toNat =
        4*emittedBefore words j) := by
  cases branches with
  | beq rs1 rs2 decoded goes =>
    have emitted : lowered w = lower (.beq rs1 rs2 off) := by rw [lowered,translateOneRiscv_decoded decoded]; rfl
    rw [← goes]
    exact btype_lands stands listed emitted fun _ => rfl
  | bne rs1 rs2 decoded goes =>
    have emitted : lowered w = lower (.bne rs1 rs2 off) := by rw [lowered,translateOneRiscv_decoded decoded]; rfl
    rw [← goes]
    exact btype_lands stands listed emitted fun _ => rfl

theorem emittedBefore_bound (stands : Stands words i m) (inside : j < words.length) : 4*emittedBefore words j < mmioBase.toNat := by
  have below := stands.code.below
  have grows := (emittedBefore_grows (show j+(words.length-j) ≤ words.length by omega)).1
  have whole : emittedBefore words (j+(words.length-j)) = (words.flatMap lowered).length := by
    unfold emittedBefore
    rw [Nat.add_sub_cancel' (Nat.le_of_lt inside),List.take_length]
  omega

-- The distance counted in words is added as bytes: right only for the next word.
theorem branch_taken_iff {off : BitVec 13} (stands : Stands words i m) (listed : words[i]? = some w)
    (branches : Branches w m off true) (inside : j < words.length) (distance : (4*j : Int) = 4*i+off.toInt) :
    Lands h words m j ↔ j = i+1 := by
  have short := (List.getElem?_eq_some_iff.mp listed).1
  obtain ⟨single,lands⟩ := branch_lands (h := h) (j := j) stands listed branches
  have next := emittedBefore_succ listed
  have low := BitVec.le_toInt off
  have high := BitVec.toInt_lt (x := off)
  have start := emittedBefore_bound stands short
  have target := emittedBefore_bound stands inside
  have limit : mmioBase.toNat = 66060288 := rfl
  have pc : (m.regs.pc+4+BitVec.ofInt 32 ((j : Int)-i-1)).toNat =
      ((4*emittedBefore words i+4+((j : Int)-i-1))%2^32).toNat := by
    rw [BitVec.toNat_add,BitVec.toNat_add,stands.pc,BitVec.toNat_ofInt]
    change ((4*emittedBefore words i+4)%2^32+_)%2^32 = _
    omega
  rw [lands,if_pos rfl,branch_words (d := (j : Int)-i) (by omega),pc]
  rcases Nat.lt_or_ge i j with forward | backward
  · have grows := (emittedBefore_grows (show i+1+(j-i-1) ≤ words.length by omega)).1
    rw [show i+1+(j-i-1) = j by omega] at grows
    constructor
    · omega
    · intro adjacent
      subst adjacent
      omega
  · have grows := (emittedBefore_grows (show j+(i-j) ≤ words.length by omega)).1
    rw [show j+(i-j) = i by omega] at grows
    omega

theorem branch_falls {off : BitVec 13} (stands : Stands words i m) (listed : words[i]? = some w)
    (branches : Branches w m off false) : Lands h words m (i+1) := by
  have short := (List.getElem?_eq_some_iff.mp listed).1
  obtain ⟨single,lands⟩ := branch_lands (h := h) (j := i+1) stands listed branches
  have start := emittedBefore_bound stands short
  have limit : mmioBase.toNat = 66060288 := rfl
  rw [lands,emittedBefore_succ listed,single]
  change (m.regs.pc+4).toNat = _
  rw [BitVec.toNat_add,stands.pc]
  change (4*emittedBefore words i+4)%2^32 = _
  omega

-- The distance is taken as an address: right only from address 0, over words that are not expanded.
theorem jump_lands_iff {rd : Rv32.Reg} {off : BitVec 21} (stands : Stands words i m) (listed : words[i]? = some w)
    (decoded : Rv32.decode w = some (.jal rd off)) (inside : j < words.length) (distance : (4*j : Int) = 4*i+off.toInt) :
    Lands h words m j ↔ i = 0 ∧ ∀ v ∈ words.take j, (lowered v).length = 1 := by
  have emitted : lowered w = lower (.jal rd off) := by rw [lowered,translateOneRiscv_decoded decoded]; rfl
  have first := lowered_placed listed
  rw [emitted] at first
  have target := emittedBefore_bound stands inside
  have limit : mmioBase.toNat = 66060288 := rfl
  have low := BitVec.le_toInt off
  have high := BitVec.toInt_lt (x := off)
  have grows := (emittedBefore_grows (show 0+j ≤ words.length by omega)).1
  have none : emittedBefore words 0 = 0 := rfl
  rw [Nat.zero_add] at grows
  rw [lands_iff stands (first 0 _ rfl) (takes_jmp (Enc.jtype_opcode ..))]
  dsimp only
  rw [Enc.jmp,Enc.jtype_target,jump_target,← emittedBefore_exact,Nat.min_eq_left (Nat.le_of_lt inside)]
  constructor
  · intro there
    omega
  · intro condition
    obtain ⟨first,unexpanded⟩ := condition
    omega

end Transfers

-- When a translated transfer of control reaches the words of its target. A branch
-- that is not taken always goes on to the next guest word.
theorem control_flow_relocated (h : Host) (words : List Word) (i j : Nat) (w : Word) (listed : words[i]? = some w)
    (inside : j < words.length) (m : Machine) (stands : Stands words i m) :
    (∀ off, Branches w m off true → (4*j : Int) = 4*i+off.toInt → (Lands h words m j ↔ j = i+1)) ∧
    (∀ rd off, Rv32.decode w = some (.jal rd off) → (4*j : Int) = 4*i+off.toInt →
      (Lands h words m j ↔ i = 0 ∧ ∀ v ∈ words.take j, (lowered v).length = 1)) ∧
    ∀ off, Branches w m off false → Lands h words m (i+1) :=
  ⟨fun _ branches distance => branch_taken_iff stands listed branches inside distance,
    fun _ _ decoded distance => jump_lands_iff stands listed decoded inside distance,
    fun _ branches => branch_falls stands listed branches⟩

def loadedAtZero (words : List Word) : Machine := (Emulator.programmed (translateBytes .riscv64 (words.flatMap wordBytes)).1).core

theorem stands_at_start {words : List Word} (fits : 4*(translateBytes .riscv64 (words.flatMap wordBytes)).1.length ≤ 512) :
    Stands words 0 (loadedAtZero words) :=
  ⟨loaded_programmed _ fits,rfl,rfl,rfl,.inl (by decide : CSRFile.initial.mstatusMie = false)⟩

theorem control_flow_relocated_next : Lands (.ieee .scalar) [0x00000263,0x000000B3] (loadedAtZero [0x00000263,0x000000B3]) 1 :=
  ((control_flow_relocated (.ieee .scalar) [0x00000263,0x000000B3] 0 1 0x00000263 rfl (by decide) _ (stands_at_start (by decide))).1 4
    (.beq 0 0 (by decide) (beq_self_eq_true _)) (by decide)).mpr rfl

-- BEQ x0,x0,8 over one ADD to the next: it goes to address 5.
def skipsOne : List Word := [0x00000463,0x000000B3,0x000000B3]

theorem branch_misses_target : ¬ ∀ (h : Host) (words : List Word) (i j : Nat) (w : Word) (m : Machine),
    (∀ v ∈ words, (translateOneRiscv v).isSome = true) → words[i]? = some w → j < words.length → Stands words i m →
    ∀ off, Branches w m off true → (4*j : Int) = 4*i+off.toInt → Lands h words m j := by
  intro relocates
  have branch := translateOneRiscv_decoded (by decide : Rv32.decode 0x00000463 = some (.beq 0 0 8))
  have sum := translateOneRiscv_decoded (by decide : Rv32.decode 0x000000B3 = some (.add 1 0 0))
  have accepted : ∀ v ∈ skipsOne, (translateOneRiscv v).isSome = true := by
    unfold skipsOne
    have added : (translateOneRiscv 0x000000B3).isSome = true := by rw [sum]; rfl
    refine List.forall_mem_cons.mpr ⟨by rw [branch]; rfl,?_⟩
    exact List.forall_mem_cons.mpr ⟨added,List.forall_mem_cons.mpr ⟨added,fun _ none => by cases none⟩⟩
  have listed : skipsOne[0]? = some 0x00000463 := rfl
  have inside : 2 < skipsOne.length := by decide
  have stands : Stands skipsOne 0 (loadedAtZero skipsOne) := stands_at_start (by decide +kernel)
  have branches : Branches 0x00000463 (loadedAtZero skipsOne) 8 true := .beq 0 0 (by decide) (beq_self_eq_true _)
  have distance : (4*(2 : Nat) : Int) = 4*(0 : Nat)+(8 : BitVec 13).toInt := by decide
  have lands := relocates (.ieee .scalar) skipsOne 0 2 0x00000463 (loadedAtZero skipsOne) accepted listed inside stands 8 branches distance
  have adjacent := (branch_taken_iff stands listed branches inside distance).mp lands
  cases adjacent

end Novium
