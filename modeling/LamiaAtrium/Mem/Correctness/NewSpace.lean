import LamiaAtrium.Mem.Correctness.Regions
import LamiaAtrium.Mem.Tables

/-!
# `Mem.Correctness.NewSpace` — what `init_mm` leaves

`NewSpace` is an empty, well-formed address space. The clearing loop sees to the page tables, whatever the frame of
the top level held (`translateAddress_initMm`); on a device that is not random access it writes nothing, and reads
that fail look like present entries. `newSpace_iff`: the rest is as it should be except for `vm_freerg_list`, which
`init_mm` pushes onto without having set it.
-/

namespace LamiaAtrium

section

variable {k : CharKind} {mp mp' : MemphyStruct} {m₀ m : MmStruct} {link : List VmRgStruct}

theorem rdmflg_initMm (hinit : initMm m₀ mp link = (0, m, mp')) : mp'.rdmflg = mp.rdmflg := by
  obtain ⟨fpn, -, -, hmp'⟩ := initMm_clears hinit
  rw [hmp', rdmflg_clearLoop]

/-- Every walk on a sequential device comes to an end: an entry that cannot be read is `-1`. -/
theorem walkTables_of_seq (h : mp.rdmflg = false) (is : List AddrT) :
    ∀ base, ∃ b, walkTables k mp base is = some b := by
  induction is with
  | nil =>
    intro base
    exact ⟨base, rfl⟩
  | cons idx is ih =>
    intro base
    rw [walkTables, get32bitEntry_of_seq h, if_pos (by decide)]
    exact ih _

theorem translateAddress_of_seq (h : mp.rdmflg = false) (vaddr : AddrT) : translateAddress k m mp vaddr ≠ none := by
  obtain ⟨b, hwalk⟩ := @walkTables_of_seq k mp h (getPdFromAddress vaddr).upper m.pgd
  rw [translateAddress, hwalk]
  dsimp only
  rw [get32bitEntry_of_seq h, if_pos (by decide)]
  exact Option.some_ne_none _

/-- **No address translates in a new address space** on a random-access device, whatever its frames held. -/
theorem translateAddress_initMm (h : mp.rdmflg = true) (hinit : initMm m₀ mp link = (0, m, mp')) (vaddr : AddrT) :
    translateAddress k m mp' vaddr = none := by
  obtain ⟨fpn, -, hpgd, hmp'⟩ := initMm_clears hinit
  have hrdm := rdmflg_initMm hinit
  rw [h] at hrdm
  -- the first entry of the walk is zero
  have hzero : get32bitEntry k mp' (entryAddr fpn (levelIdx 48 vaddr)) = 0 := by
    apply get32bitEntry_of_blank hrdm
    intro c hc
    have h₁ : ({ mp with freeFpList := mp'.freeFpList } : MemphyStruct).rdmflg = true := h
    have hcell := storage_clearLoop_entry h₁ fpn (levelIdx 48 vaddr) hc
    rw [← hmp'] at hcell
    exact hcell
  rw [translateAddress, hpgd, upper_getPdFromAddress, upperPath, List.map_cons, walkTables, entryAddr_eq, hzero,
    if_neg (by decide)]

end

/-- **An empty, well-formed address space.** -/
structure NewSpace (k : CharKind) (mm : MmStruct) (mp : MemphyStruct) : Prop where
  unmapped : ∀ vaddr, translateAddress k mm mp vaddr = none
  fifoPgn : mm.fifoPgn = []
  symrgtbl : ∀ r, mm.symrgtbl.get r = ⟨0, 0⟩
  area : ∃ vma, mm.mmap = [vma] ∧ vma.vmStart = 0 ∧ vma.vmEnd = 0 ∧ vma.sbrk = 0 ∧ vma.vmFreergList = [⟨0, 0⟩]

/-- **A new address space is empty and well-formed exactly when** `vm_freerg_list` of the new area happened to be
    `NULL`, and the RAM is a random-access device. -/
theorem newSpace_iff (k : CharKind) (m₀ m : MmStruct) (mp mp' : MemphyStruct) (link : List VmRgStruct)
    (hinit : initMm m₀ mp link = (0, m, mp')) : NewSpace k m mp' ↔ link = [] ∧ mp.rdmflg = true := by
  obtain ⟨hmmap, hsym, hfifo⟩ := initMm_area hinit
  constructor
  · rintro ⟨hunmapped, -, -, vma, hvma, -, -, -, hlist⟩
    rw [hmmap] at hvma
    obtain rfl := (List.cons.inj hvma).1
    refine ⟨(List.cons.inj hlist).2, ?_⟩
    cases hrdm : mp.rdmflg with
    | true => rfl
    | false => exact absurd (hunmapped 0) (translateAddress_of_seq (rdmflg_initMm hinit |>.trans hrdm) 0)
  · rintro ⟨rfl, hrdm⟩
    refine ⟨translateAddress_initMm hrdm hinit, hfifo, ?_, vma0 [], hmmap, rfl, rfl, rfl, rfl⟩
    intro r
    rw [hsym]
    exact Vector.getElem_replicate r.isLt

/-- The first process, with heap memory that is zero. -/
theorem newSpace_iff_zero : ∃ m₀ m mram, initMm m₀ oneFrame.mram [] = (0, m, mram) ∧ NewSpace .signed m mram := by
  obtain ⟨m₀, m, mram, hinit, -⟩ := initMm_oneFrame
  exact ⟨m₀, m, mram, hinit, (newSpace_iff .signed m₀ m oneFrame.mram mram [] hinit).mpr ⟨rfl, rfl⟩⟩

/-- The block of the new area comes back from `malloc` with a pointer where `vm_freerg_list` is. -/
theorem newSpace_fails : ¬ ∀ (k : CharKind) (m₀ m : MmStruct) (mp mp' : MemphyStruct) (link : List VmRgStruct),
    mp.rdmflg = true → mp.freeFpList ≠ [] → initMm m₀ mp link = (0, m, mp') → NewSpace k m mp' := by
  intro hall
  obtain ⟨m, mram, hinit⟩ : ∃ m mram, initMm rawMm oneFrame.mram [⟨64, 96⟩] = (0, m, mram) := ⟨_, _, rfl⟩
  obtain ⟨-, -, -, vma, hvma, -, -, -, hlist⟩ := hall .signed rawMm m oneFrame.mram mram _ rfl (by decide) hinit
  rw [(initMm_area hinit).1] at hvma
  obtain rfl := (List.cons.inj hvma).1
  exact absurd hlist (by decide)

end LamiaAtrium
