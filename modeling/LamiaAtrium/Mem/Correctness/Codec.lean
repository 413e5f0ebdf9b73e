import LamiaAtrium.Mem.Access
import LamiaAtrium.Mem.Correctness.Residency

/-!
# `Mem.Correctness.Codec` — what comes back of a word that was written as an entry

* Bytes: with a signed `char`, each byte of 0x80 or more drags ones into all bits above it, so a word comes back
  exactly when it has no such byte (`decode_signed_eq_iff`).
* `roundTrips_iff`: the same for `pte_set_entry` and `pte_get_entry`. Such a word has no present bit either, so the
  entry must not be one that leads to itself.
* Frame numbers: an entry has 13 bits for one (`recovered_iff`), and `MEMPHY_format` may number more frames than
  that (`fpnsRecovered_iff`).
-/

namespace LamiaAtrium

open Radix

/-! ## Four bytes of plain `char` -/

/-- The top bit of each byte of a word. -/
def highBits : BitVec 32 := 0x80808080#32

theorem getLsbD_highBits : ∀ n < 32, highBits.getLsbD n = decide (n % 8 = 7) := by decide

/-- No byte of the word is 0x80 or more. -/
theorem and_highBits_eq_zero_iff (v : BitVec 32) :
    v &&& highBits = 0 ↔ ∀ i < 4, (byteOf (v.setWidth 64) i).getLsbD 7 = false := by
  have hbyte : ∀ i < 4, (byteOf (v.setWidth 64) i).getLsbD 7 = v.getLsbD (i * 8 + 7) := by
    intro i hi
    rw [getLsbD_byteOf _ _ (by decide), BitVec.getLsbD_setWidth]
    simp [show i * 8 + 7 < 64 by omega]
  constructor
  · intro h i hi
    have hbit := congrArg (fun w => w.getLsbD (i * 8 + 7)) h
    rw [BitVec.getLsbD_and, getLsbD_highBits _ (by omega), decide_eq_true (by omega), Bool.and_true] at hbit
    rw [hbyte i hi, hbit]
    exact BitVec.getLsbD_zero
  · intro h
    apply BitVec.eq_of_getLsbD_eq
    intro n hn
    have hzero : (0 : BitVec 32).getLsbD n = false := BitVec.getLsbD_zero
    rw [BitVec.getLsbD_and, getLsbD_highBits n hn, hzero]
    by_cases htop : n % 8 = 7
    · have hn' : n = n / 8 * 8 + 7 := by omega
      rw [hn', ← hbyte (n / 8) (by omega), h (n / 8) (by omega), Bool.false_and]
    · rw [decide_eq_false htop, Bool.and_false]

theorem decode_unsigned_byteOf (v : BitVec 32) :
    decodeBytes .unsigned (byteOf (v.setWidth 64)) = v.setWidth 64 := by
  apply BitVec.eq_of_getLsbD_eq
  intro n hn
  by_cases h32 : n < 32
  · rw [getLsbD_decode_unsigned _ h32, getLsbD_byteOf _ _ (Nat.mod_lt _ (by decide)), Nat.div_add_mod']
  · rw [BitVec.getLsbD_setWidth, BitVec.getLsbD_of_ge v n (by omega), Bool.and_false]
    unfold decodeBytes CharKind.extend
    simp only [BitVec.getLsbD_or, BitVec.getLsbD_shiftLeft, BitVec.getLsbD_setWidth, hn]
    simp [show ¬ n < 8 by omega, BitVec.getLsbD_of_ge, show 8 ≤ n by omega, show 8 ≤ n - 8 by omega,
      show 8 ≤ n - 16 by omega, show 8 ≤ n - 24 by omega]

/-- A byte of 0x80 or more sets the top bit of the result. -/
theorem getLsbD_decode_signed_63 (b : ℕ → BYTE) {i : ℕ} (hi : i < 4) (h : (b i).getLsbD 7 = true) :
    (decodeBytes .signed b).getLsbD 63 = true := by
  have h' : (b i)[7] = true := by simpa using h
  unfold decodeBytes CharKind.extend
  simp only [BitVec.getLsbD_or, BitVec.getLsbD_shiftLeft, BitVec.getLsbD_signExtend, BitVec.msb_eq_getLsbD_last]
  interval_cases i <;> simp [h']

/-- Without such a byte, signed and unsigned are the same. -/
theorem decode_signed_of_low (b : ℕ → BYTE) (h : ∀ i < 4, (b i).getLsbD 7 = false) :
    decodeBytes .signed b = decodeBytes .unsigned b := by
  have hextend : ∀ i < 4, CharKind.signed.extend (b i) = (CharKind.unsigned.extend (b i) : AddrT) := by
    intro i hi
    apply BitVec.signExtend_eq_setWidth_of_msb_false
    rw [BitVec.msb_eq_getLsbD_last]
    exact h i hi
  simp only [decodeBytes, hextend 0 (by decide), hextend 1 (by decide), hextend 2 (by decide),
    hextend 3 (by decide)]

/-- **With a signed `char`, a word comes back exactly when each of its bytes is below 0x80.** -/
theorem decode_signed_eq_iff (v : BitVec 32) :
    decodeBytes .signed (byteOf (v.setWidth 64)) = v.setWidth 64 ↔ v &&& highBits = 0 := by
  rw [and_highBits_eq_zero_iff]
  constructor
  · intro h i hi
    by_contra hset
    rw [Bool.not_eq_false] at hset
    have htop := getLsbD_decode_signed_63 _ hi hset
    rw [h, BitVec.getLsbD_setWidth, BitVec.getLsbD_of_ge v 63 (by decide)] at htop
    exact absurd htop (by decide)
  · intro h
    rw [decode_signed_of_low _ h, decode_unsigned_byteOf]

/-! ## `pte_set_entry` and `pte_get_entry` -/

section

variable {k : CharKind} {mp : MemphyStruct} {mm : MmStruct} {f g r pgn : AddrT} {i j : Fin 512}

theorem mem_entryAccess_entryAddr (h : mp.rdmflg = true) (hf : Addressable f) (hg : Addressable g) :
    entryAddr g j ∈ entryAccess mp (entryAddr f i) ↔ f = g ∧ i = j := by
  rw [mem_entryAccess]
  constructor
  · rintro ⟨-, c, hc, heq⟩
    rw [← BitVec.add_zero (entryAddr g j)] at heq
    obtain ⟨rfl, rfl, -⟩ := entryAddr_add_inj hg hf (show 0 < 4 by decide) hc heq
    exact ⟨rfl, rfl⟩
  · rintro ⟨rfl, rfl⟩
    exact ⟨h, 0, by decide, (BitVec.add_zero _).symm⟩

/-- Other entries keep their value. -/
theorem get32bitEntry_put_of_ne (h : mp.rdmflg = true) (hf : Addressable f) (hg : Addressable g)
    (hne : ¬ (f = g ∧ i = j)) (v : AddrT) :
    get32bitEntry k (putEntryBytes mp (entryAddr g j) v) (entryAddr f i) = get32bitEntry k mp (entryAddr f i) := by
  have hagree : AgreeOn (· ∈ entryAccess mp (entryAddr f i)) mp (putEntryBytes mp (entryAddr g j) v) := by
    refine ⟨rdmflg_putEntryBytes .., freeFpList_putEntryBytes .., fun a ha => ?_⟩
    apply storage_putEntryBytes_of_ne h
    rintro d hd rfl
    obtain ⟨-, c, hc, heq⟩ := mem_entryAccess.mp ha
    obtain ⟨rfl, rfl, -⟩ := entryAddr_add_inj hg hf hd hc heq
    exact hne ⟨rfl, rfl⟩
  exact hagree.get32bitEntry fun a ha => ha

/-- **A walk that does not pass the entry** goes on as before. -/
theorem walkTables_put_of_notMem (h : mp.rdmflg = true) (hg : Addressable g) (v : AddrT) (is : List (Fin 512)) :
    ∀ {f : AddrT}, Addressable f → entryAddr g j ∉ walkAccess k mp (baseOf f) (is.map idxOf) →
      walkTables k (putEntryBytes mp (entryAddr g j) v) (baseOf f) (is.map idxOf)
        = walkTables k mp (baseOf f) (is.map idxOf) := by
  induction is with
  | nil =>
    intro f _ _
    rfl
  | cons i is ih =>
    intro f hf hnot
    rw [List.map_cons, walkAccess, entryAddr_eq, List.mem_append, not_or, mem_entryAccess_entryAddr h hf hg] at hnot
    obtain ⟨hne, hrest⟩ := hnot
    rw [List.map_cons, walkTables, walkTables, entryAddr_eq, get32bitEntry_put_of_ne h hf hg hne]
    by_cases hpresent : entryPresent (get32bitEntry k mp (entryAddr f i)) = true
    · rw [if_pos hpresent] at hrest
      rw [if_pos hpresent, if_pos hpresent]
      exact ih (addressable_entryFpn _) hrest
    · rw [if_neg hpresent, if_neg hpresent]

/-- **A walk that passes it ends there**, when the entry is not present any more. -/
theorem walkTables_put_of_mem (h : mp.rdmflg = true) (hg : Addressable g) {v : AddrT}
    (hv : entryPresent (decodeBytes k (byteOf v)) = false) (is : List (Fin 512)) :
    ∀ {f : AddrT}, Addressable f → entryAddr g j ∈ walkAccess k mp (baseOf f) (is.map idxOf) →
      walkTables k (putEntryBytes mp (entryAddr g j) v) (baseOf f) (is.map idxOf) = none := by
  induction is with
  | nil =>
    intro f _ hmem
    cases hmem
  | cons i is ih =>
    intro f hf hmem
    rw [List.map_cons, walkAccess, entryAddr_eq, List.mem_append, mem_entryAccess_entryAddr h hf hg] at hmem
    rw [List.map_cons, walkTables, entryAddr_eq]
    by_cases heq : f = g ∧ i = j
    · obtain ⟨rfl, rfl⟩ := heq
      rw [decode_stored h, hv, if_neg Bool.false_ne_true]
    · have hrest := hmem.resolve_left heq
      rw [get32bitEntry_put_of_ne h hf hg heq]
      by_cases hpresent : entryPresent (get32bitEntry k mp (entryAddr f i)) = true
      · rw [if_pos hpresent] at hrest
        rw [if_pos hpresent]
        exact ih (addressable_entryFpn _) hrest
      · rw [if_neg hpresent]

/-- Where the entry of a page is, when it has one. -/
theorem getPteAddress_cases (hr : mm.pgd = baseOf r) (hra : Addressable r) {pteAddr : AddrT}
    (h : getPteAddress k mm mp pgn = some pteAddr) : ∃ g, Addressable g ∧ pteAddr = entryAddr g (ptIdx pgn) := by
  obtain ⟨hwalk, haddr⟩ := @walkTables_walk k mp (upperPath (pgn <<< 12)) r hra
  rw [getPteAddress, hr, getPdFromPagenum, upper_getPdFromAddress, hwalk] at h
  cases hg : walk (tables k mp) r (upperPath (pgn <<< 12)) with
  | none =>
    rw [hg] at h
    cases h
  | some g =>
    rw [hg, Option.map_some, pt_getPdFromAddress] at h
    cases h
    exact ⟨g, haddr g hg, rfl⟩

/-- The entry of the page is not on the way to it: the word is read back as it was stored. -/
theorem pteGetEntry_put_of_notMem (h : mp.rdmflg = true) (hr : mm.pgd = baseOf r) (hra : Addressable r)
    {pteAddr : AddrT} (hpte : getPteAddress k mm mp pgn = some pteAddr) (hnot : pteAddr ∉ getPteAccess k mm mp pgn)
    (v : AddrT) : pteGetEntry k mm (putEntryBytes mp pteAddr v) pgn = (decodeBytes k (byteOf v)).setWidth 32 := by
  obtain ⟨g, hg, rfl⟩ := getPteAddress_cases hr hra hpte
  have hsame : getPteAddress k mm (putEntryBytes mp (entryAddr g (ptIdx pgn)) v) pgn = getPteAddress k mm mp pgn := by
    rw [getPteAccess, hr, getPdFromPagenum, upper_getPdFromAddress] at hnot
    rw [getPteAddress, getPteAddress, hr, getPdFromPagenum, upper_getPdFromAddress,
      walkTables_put_of_notMem h hg v _ hra hnot]
  rw [pteGetEntry, hsame, hpte]
  dsimp only
  rw [decode_stored h]

/-- It is on the way, and has no present bit: the page has no entry any more. -/
theorem pteGetEntry_put_of_mem (h : mp.rdmflg = true) (hr : mm.pgd = baseOf r) (hra : Addressable r) {pteAddr v : AddrT}
    (hv : entryPresent (decodeBytes k (byteOf v)) = false)
    (hpte : getPteAddress k mm mp pgn = some pteAddr) (hmem : pteAddr ∈ getPteAccess k mm mp pgn) :
    pteGetEntry k mm (putEntryBytes mp pteAddr v) pgn = 0 := by
  obtain ⟨g, hg, rfl⟩ := getPteAddress_cases hr hra hpte
  rw [getPteAccess, hr, getPdFromPagenum, upper_getPdFromAddress] at hmem
  rw [pteGetEntry, getPteAddress, hr, getPdFromPagenum, upper_getPdFromAddress,
    walkTables_put_of_mem h hg hv _ hra hmem]

/-- What writing `v` and reading it back should do, at an address and at the entry of a page. -/
structure RoundTrips (k : CharKind) (mm : MmStruct) (mp : MemphyStruct) (a pgn : AddrT) (v : BitVec 32) : Prop where
  bytes : get32bitEntry k (putEntryBytes mp a (v.setWidth 64)) a = v.setWidth 64
  entry : (pteSetEntry k mm mp pgn v).1 = 0 → pteGetEntry k mm (pteSetEntry k mm mp pgn v).2 pgn = v

end

/-- **With a signed `char`, a word makes the round trip exactly when each of its bytes is below 0x80**, and it is not
    written over an entry on the way to it. -/
theorem roundTrips_iff (mm : MmStruct) (mp : MemphyStruct) (a pgn r : AddrT) (v : BitVec 32) (h : mp.rdmflg = true)
    (hr : mm.pgd = baseOf r) (hra : Addressable r) :
    RoundTrips .signed mm mp a pgn v ↔ v &&& highBits = 0 ∧
      ∀ pteAddr, getPteAddress .signed mm mp pgn = some pteAddr →
        v = 0 ∨ pteAddr ∉ getPteAccess .signed mm mp pgn := by
  have hbytes : get32bitEntry .signed (putEntryBytes mp a (v.setWidth 64)) a = v.setWidth 64 ↔ v &&& highBits = 0 := by
    rw [decode_stored h, decode_signed_eq_iff]
  -- such a word is not present
  have habsent : v &&& highBits = 0 → entryPresent (decodeBytes .signed (byteOf (v.setWidth 64))) = false := by
    intro hlow
    have hbit := (and_highBits_eq_zero_iff v).mp hlow 3 (by decide)
    rw [getLsbD_byteOf _ _ (by decide)] at hbit
    rw [(decode_signed_eq_iff v).mpr hlow, entryPresent_eq]
    exact hbit
  constructor
  · rintro ⟨hread, hentry⟩
    have hlow := hbytes.mp hread
    refine ⟨hlow, fun pteAddr hpte => ?_⟩
    by_cases hmem : pteAddr ∈ getPteAccess .signed mm mp pgn
    · left
      rw [pteSetEntry, hpte] at hentry
      rw [← hentry rfl, pteGetEntry_put_of_mem h hr hra (habsent hlow) hpte hmem]
    · exact .inr hmem
  · rintro ⟨hlow, hway⟩
    refine ⟨hbytes.mpr hlow, fun hset => ?_⟩
    cases hpte : getPteAddress .signed mm mp pgn with
    | none =>
      rw [pteSetEntry, hpte] at hset
      cases hset
    | some pteAddr =>
      rw [pteSetEntry, hpte]
      dsimp only
      by_cases hmem : pteAddr ∈ getPteAccess .signed mm mp pgn
      · rw [pteGetEntry_put_of_mem h hr hra (habsent hlow) hpte hmem]
        exact ((hway pteAddr hpte).resolve_right (not_not.mpr hmem)).symm
      · rw [pteGetEntry_put_of_notMem h hr hra hpte hmem, (decode_signed_eq_iff v).mpr hlow]
        exact BitVec.setWidth_setWidth_of_le _ (by decide) |>.trans (BitVec.setWidth_eq v)

/-- What a descent reads are entries of tables above its end. -/
theorem Rooted.mem_walkAccess {k : CharKind} {root : ℕ → Option AddrT} {mms : ℕ → Option MmStruct} {mp : MemphyStruct}
    (h : Rooted k root mms mp) {p : ℕ} {r g : AddrT} (hr : root p = some r) (hg : Addressable g) {j : Fin 512}
    (is : List (Fin 512)) : ∀ {pre : List (Fin 512)} {f : AddrT}, walk (tables k mp) r pre = some f →
      entryAddr g j ∈ walkAccess k mp (baseOf f) (is.map idxOf) →
        ∃ js, js.length < is.length ∧ walk (tables k mp) r (pre ++ js) = some g := by
  induction is with
  | nil =>
    intro pre f _ hmem
    cases hmem
  | cons i is ih =>
    intro pre f hf hmem
    have hfa : Addressable f := (walkTables_walk pre (h.roots hr)).2 f hf
    rw [List.map_cons, walkAccess, entryAddr_eq, List.mem_append, mem_entryAccess_entryAddr h.rdm hfa hg] at hmem
    rcases hmem with ⟨rfl, -⟩ | hrest
    · exact ⟨[], Nat.succ_pos _, by rw [List.append_nil, hf]⟩
    · by_cases hpresent : entryPresent (get32bitEntry k mp (entryAddr f i)) = true
      · rw [if_pos hpresent, entryBase_eq] at hrest
        have hnext : walk (tables k mp) r (pre ++ [i]) = some (entryFpn (get32bitEntry k mp (entryAddr f i))) := by
          rw [walk_concat, hf, Option.bind_some, tables_of_present hfa hpresent]
        obtain ⟨js, hlen, hwalk⟩ := ih hnext hrest
        refine ⟨i :: js, Nat.succ_lt_succ hlen, ?_⟩
        rwa [← List.singleton_append, ← List.append_assoc]
      · rw [if_neg hpresent] at hrest
        cases hrest

/-- **In a forest the entry of a page is not on the way to it.** -/
theorem Rooted.pteAddress_notMem {k : CharKind} {root : ℕ → Option AddrT} {mms : ℕ → Option MmStruct}
    {mp : MemphyStruct} (h : Rooted k root mms mp) {p : ℕ} {mm : MmStruct} (hm : mms p = some mm) {pgn pteAddr : AddrT}
    (hpte : getPteAddress k mm mp pgn = some pteAddr) : pteAddr ∉ getPteAccess k mm mp pgn := by
  obtain ⟨r, hr, hpgd, hra⟩ := h.root_of hm
  obtain ⟨hwalk, haddr⟩ := @walkTables_walk k mp (upperPath (pgn <<< 12)) r hra
  rw [getPteAddress, hpgd, getPdFromPagenum, upper_getPdFromAddress, hwalk] at hpte
  cases hg : walk (tables k mp) r (upperPath (pgn <<< 12)) with
  | none =>
    rw [hg] at hpte
    cases hpte
  | some g =>
    rw [hg, Option.map_some, pt_getPdFromAddress] at hpte
    cases hpte
    intro hmem
    rw [getPteAccess, hpgd, getPdFromPagenum, upper_getPdFromAddress] at hmem
    obtain ⟨js, hlen, hjs⟩ := h.mem_walkAccess (j := ptIdx pgn) hr (haddr g hg) _ (walk_nil _ r) hmem
    have hfour : (upperPath (pgn <<< 12)).length = 4 := rfl
    rw [List.nil_append] at hjs
    obtain ⟨-, rfl⟩ := h.forest.inj hr hr (by omega) (by omega) hjs hg
    exact absurd hlen (Nat.lt_irrefl _)

/-- A page that has been set has an entry. -/
theorem Owned.pteAddress_of_set {k : CharKind} {root : ℕ → Option AddrT} {mms : ℕ → Option MmStruct}
    {mp mp' : MemphyStruct} (h : Owned k root mms mp) {p : ℕ} {mm : MmStruct} (hm : mms p = some mm)
    {pgn fpn : AddrT} (hfpn : Survives k fpn) (hset : pteSetFpn k mm mp pgn fpn = (0, mp')) :
    ∃ pteAddr, getPteAddress k mm mp' pgn = some pteAddr := by
  obtain ⟨r, hr, hpgd, hra⟩ := h.root_of hm
  obtain ⟨-, hwalks⟩ := h.after_pteSetFpn hm hfpn hset
  have hleaf := hwalks hr (length_leafPath (pgn <<< 12))
  rw [if_pos ⟨rfl, rfl, rfl⟩, leafPath, walk_concat] at hleaf
  obtain ⟨g, hg, -⟩ := Option.bind_eq_some_iff.mp hleaf
  rw [getPteAddress, hpgd, getPdFromPagenum, upper_getPdFromAddress, (walkTables_walk _ hra).1, hg]
  exact ⟨_, rfl⟩

/-- The first process of a small device sets its page 7. -/
theorem signed_page : ∃ m mp r, mp.rdmflg = true ∧ m.pgd = baseOf r ∧ Addressable r ∧
    ∃ pteAddr, getPteAddress .signed m mp 7 = some pteAddr ∧ pteAddr ∉ getPteAccess .signed m mp 7 := by
  have hformat : Formatted rawMp [] 4096 := .inl (by decide)
  have hsixteen : (numfpOf 4096).toNat = 16 := by decide
  have hsurv : ∀ x : AddrT, x.toNat < 16 → Survives .signed x := by
    intro x hx
    exact ⟨by omega, fun _ => Nat.testBit_lt_two_pow (show x.toNat < 2 ^ 7 by omega)⟩
  have howned : Owned .signed (fun _ => none) (fun _ => none) (initMemphy rawMp (fun _ => 0) [] 4096 1) :=
    owned_initMemphy_of_survives (by decide) (fun x hx => hsurv x (hsixteen ▸ hx)) (fun _ _ _ => rfl) hformat
  have hlen : (initMemphy rawMp (fun _ => 0) [] 4096 1).freeFpList.length = 16 := by
    rw [freeFpList_of_formatted _ _ hformat, List.length_map, List.length_range, hsixteen]
  obtain ⟨m, mp, r, -, howned, hlen'⟩ := howned.initMm_succeeds 0 (by rw [← List.length_pos_iff]; omega) rawMm []
  obtain ⟨mp', hset, -, -⟩ := howned.pteSetFpn_succeeds (p := 0) rfl 7 5 (by omega)
  obtain ⟨pteAddr, hpte⟩ := howned.pteAddress_of_set (p := 0) rfl (hsurv 5 (by decide)) hset
  obtain ⟨howned, -⟩ := howned.after_pteSetFpn (p := 0) rfl (hsurv 5 (by decide)) hset
  obtain ⟨r, -, hpgd, hra⟩ := howned.root_of (p := 0) rfl
  exact ⟨m, mp', r, howned.rdm, hpgd, hra, pteAddr, hpte, howned.toRooted.pteAddress_notMem (p := 0) rfl hpte⟩

theorem roundTrips_iff_page : ∃ m mp, (getPteAddress .signed m mp 7).isSome ∧ RoundTrips .signed m mp 0 7 0x7F := by
  obtain ⟨m, mp, r, hrdm, hpgd, hra, pteAddr, hpte, hnot⟩ := signed_page
  refine ⟨m, mp, by rw [hpte]; rfl, (roundTrips_iff m mp 0 7 r 0x7F hrdm hpgd hra).mpr ⟨by decide, ?_⟩⟩
  intro a ha
  rw [hpte] at ha
  cases ha
  exact .inr hnot

/-- A random-access device of 4096 zero bytes. -/
def blankRam : MemphyStruct := { rawMp with rdmflg := true, maxsz := 4096 }

theorem roundTrips_fails :
    ¬ ∀ mm mp a pgn v, mp.rdmflg = true → (a.toNat + 4 : ℤ) ≤ mp.maxsz → RoundTrips .signed mm mp a pgn v := by
  intro h
  have hread := (h rawMm blankRam 0 0 0x80 rfl (by decide)).bytes
  rw [decode_stored rfl, decode_signed_eq_iff] at hread
  exact absurd hread (by decide)

/-! ## Frame numbers -/

/-- `x` is found again where `pte_set_fpn` has stored it, by `translate_address` and `get_pte_address` in the entry of
    a table, and by `translate_address` and `PAGING_FPN` in the entry of a page. A `char` is unsigned. -/
structure Recovered (x : AddrT) : Prop where
  table : ∀ (mp : MemphyStruct) (f : AddrT) (i : Fin 512), mp.rdmflg = true → Addressable f →
    entryPresent (get32bitEntry .unsigned mp (entryAddr f i)) = false → mp.freeFpList.head? = some x →
    walkTables .unsigned (allocTables .unsigned mp (baseOf f) [idxOf i]).2 (baseOf f) [idxOf i] = some (baseOf x)
  leaf : ∀ (mm : MmStruct) (mp : MemphyStruct) (pgn r g : AddrT), OwnTable mm mp pgn r g →
    (∀ off < 4096, translateAddress .unsigned mm (pteSetFpn .unsigned mm mp pgn x).2 (pageByte pgn off)
        = some (baseOf x + BitVec.ofNat 64 off)) ∧
      (pagingFpn (pteGetEntry .unsigned mm (pteSetFpn .unsigned mm mp pgn x).2 pgn)).setWidth 64 = x

theorem pagingFpn_lt (pte : BitVec 32) : (pagingFpn pte).toNat < 8192 := by
  have hmask : pagingPteFpnMask.toNat = 8191 := by decide
  have hle := Nat.and_le_right (n := pte.toNat) (m := 8191)
  rw [pagingFpn, BitVec.ushiftRight_zero, BitVec.toNat_and, hmask]
  omega

/-- **13 bits**: an entry returns the frame numbers below 8192. -/
theorem recovered_iff (x : AddrT) : Recovered x ↔ x.toNat < 8192 := by
  constructor
  · intro h
    obtain ⟨m, mp, g, hown⟩ := first_page
    obtain ⟨-, hfpn⟩ := h.leaf m mp 0 _ g hown
    have hlt := pagingFpn_lt (pteGetEntry .unsigned m (pteSetFpn .unsigned m mp 0 x).2 0)
    rw [← hfpn, BitVec.toNat_setWidth_of_le (by decide)]
    exact hlt
  · intro hx
    have hsurvives : Survives .unsigned x := ⟨hx, fun hs => by cases hs⟩
    constructor
    · intro mp f i h hf habsent hhead
      obtain ⟨rest, hlist⟩ : ∃ rest, mp.freeFpList = x :: rest := by
        cases hpool : mp.freeFpList with
        | nil =>
          rw [hpool] at hhead
          cases hhead
        | cons y rest =>
          rw [hpool] at hhead
          cases hhead
          exact ⟨rest, rfl⟩
      have hbits := getLsbD_tableEntry hx
      have hdecode := decode_byteOf hsurvives hbits.1 hbits.2
      have h₁ : ({ mp with freeFpList := rest } : MemphyStruct).rdmflg = true := h
      rw [allocTables, entryAddr_eq, habsent, if_neg Bool.false_ne_true, memphyGetFreefp_cons hlist]
      dsimp only
      rw [allocTables, walkTables, entryAddr_eq, decode_stored h₁, if_pos hdecode.1, walkTables,
        entryBase_eq (decodeBytes _ _), hdecode.2]
    · intro mm mp pgn r g hown
      refine ⟨(hown.found hx).translate, ?_⟩
      have hword := hown.word_apply (.setFpn x)
      rw [PteCall.apply] at hword
      rw [hword]
      exact pagingFpn_leafEntry _ hx

/-! ### The frames of a device -/

/-- A device, and the frames that it has given away. -/
structure PoolState where
  mp : MemphyStruct
  out : List AddrT

/-- `MEMPHY_get_freefp`, and `MEMPHY_put_freefp` of a frame that was given away. -/
inductive PoolStep : PoolState → Unit → PoolState → Prop where
  | get {s : PoolState} {fpn mp} : memphyGetFreefp s.mp = some (fpn, mp) → PoolStep s () ⟨mp, fpn :: s.out⟩
  | put {s : PoolState} {fpn} : fpn ∈ s.out → PoolStep s () ⟨memphyPutFreefp s.mp fpn, s.out.erase fpn⟩

/-- Any sequence of the two on a device that `init_memphy` has set up. -/
def poolSystem (d : DeviceBoot) : Lts.System PoolState Unit where
  init s := s = ⟨d.device, []⟩
  step := PoolStep

/-- `MEMPHY_get_freefp` can return `x`. -/
def CanReturn (d : DeviceBoot) (x : AddrT) : Prop :=
  ∃ s mp, (poolSystem d).Reachable s ∧ memphyGetFreefp s.mp = some (x, mp)

/-- Every frame is one that the device had at first. -/
theorem mem_of_poolReachable {d : DeviceBoot} {s : PoolState} (h : (poolSystem d).Reachable s) :
    (∀ x ∈ s.mp.freeFpList, x ∈ d.device.freeFpList) ∧ ∀ x ∈ s.out, x ∈ d.device.freeFpList := by
  refine Lts.System.Reachable.invariant (I := fun s => (∀ x ∈ s.mp.freeFpList, x ∈ d.device.freeFpList) ∧
    ∀ x ∈ s.out, x ∈ d.device.freeFpList) ?_ ?_ h
  · rintro s rfl
    exact ⟨fun x hx => hx, fun x hx => absurd hx List.not_mem_nil⟩
  · rintro s l t ⟨hfree, hout⟩ hst
    cases hst with
    | get hget =>
      obtain ⟨hlist, -⟩ := memphyGetFreefp_eq_some hget
      rw [hlist, List.forall_mem_cons] at hfree
      exact ⟨hfree.2, List.forall_mem_cons.mpr ⟨hfree.1, hout⟩⟩
    | put hmem =>
      exact ⟨List.forall_mem_cons.mpr ⟨hout _ hmem, hfree⟩, fun x hx => hout x (List.mem_of_mem_erase hx)⟩

/-- The device can be emptied from the front. -/
theorem poolReachable_drop (d : DeviceBoot) (n : ℕ) (hn : n ≤ d.device.freeFpList.length) :
    ∃ s, (poolSystem d).Reachable s ∧ s.mp.freeFpList = d.device.freeFpList.drop n := by
  induction n with
  | zero => exact ⟨_, .init rfl, rfl⟩
  | succ n ih =>
    obtain ⟨s, hs, hlist⟩ := ih (by omega)
    rw [List.drop_eq_getElem_cons hn] at hlist
    exact ⟨_, hs.step (.get (memphyGetFreefp_cons hlist)), rfl⟩

/-- **The frames that `MEMPHY_get_freefp` can return** are those on the first list. -/
theorem canReturn_iff (d : DeviceBoot) (x : AddrT) : CanReturn d x ↔ x ∈ d.device.freeFpList := by
  constructor
  · rintro ⟨s, mp, hs, hget⟩
    apply (mem_of_poolReachable hs).1
    rw [(memphyGetFreefp_eq_some hget).1]
    exact List.mem_cons_self
  · intro hx
    obtain ⟨n, hn, rfl⟩ := List.mem_iff_getElem.mp hx
    obtain ⟨s, hs, hlist⟩ := poolReachable_drop d n (Nat.le_of_lt hn)
    rw [List.drop_eq_getElem_cons hn] at hlist
    exact ⟨s, _, hs, memphyGetFreefp_cons hlist⟩

/-- What `MEMPHY_format` leaves uninitialised when it cuts fewer than two frames. -/
def DeviceBoot.leftover (d : DeviceBoot) : List AddrT :=
  if numfpOf d.maxSize ≤ 0 then d.mp.freeFpList else if numfpOf d.maxSize = 1 then d.link else []

/-- The list has the frames by number, and what was left. -/
theorem mem_device_freeFpList (d : DeviceBoot) (x : AddrT) :
    x ∈ d.device.freeFpList ↔ (x.toNat : ℤ) < numfpOf d.maxSize ∨ x ∈ d.leftover := by
  rw [DeviceBoot.device, initMemphy_freeFpList, DeviceBoot.leftover]
  by_cases hnone : numfpOf d.maxSize ≤ 0
  · rw [if_pos hnone, if_pos hnone]
    exact ⟨.inr, fun h => h.resolve_left (by omega)⟩
  · rw [if_neg hnone, if_neg hnone]
    by_cases hone : numfpOf d.maxSize = 1
    · rw [if_pos hone, if_pos hone, hone, List.mem_cons]
      have hzero : x = 0 ↔ (x.toNat : ℤ) < 1 := by
        rw [← BitVec.toNat_inj]
        show x.toNat = 0 ↔ _
        omega
      rw [hzero]
    · rw [if_neg hone, if_neg hone, mem_frameNumbers]
      exact ⟨.inl, fun h => h.resolve_right List.not_mem_nil⟩

/-- What should hold of every device: each frame that it can give away is recovered, so no two are confused. -/
structure FpnsRecovered (d : DeviceBoot) : Prop where
  recovered : ∀ x, CanReturn d x → Recovered x
  distinct : ∀ x y v w, CanReturn d x → CanReturn d y →
    entryFpn (decodeBytes .unsigned (byteOf (leafEntry v x)))
      = entryFpn (decodeBytes .unsigned (byteOf (leafEntry w y))) → x = y

/-- **Frame numbers fit into entries exactly for RAM of at most 8192 frames** (and when the list that `MEMPHY_format`
    leaves undefined for less than two frames has no other numbers). -/
theorem fpnsRecovered_iff (d : DeviceBoot) :
    FpnsRecovered d ↔ numfpOf d.maxSize ≤ 8192 ∧ ∀ x ∈ d.leftover, x.toNat < 8192 := by
  constructor
  · intro h
    have hlt : ∀ x, ((x.toNat : ℤ) < numfpOf d.maxSize ∨ x ∈ d.leftover) → x.toNat < 8192 := by
      intro x hx
      exact (recovered_iff x).mp (h.recovered x ((canReturn_iff d x).mpr ((mem_device_freeFpList d x).mpr hx)))
    refine ⟨?_, fun x hx => hlt x (.inr hx)⟩
    by_contra hmore
    have h8192 : ((8192 : AddrT).toNat : ℤ) = 8192 := by decide
    have hfirst := hlt 8192 (.inl (by omega))
    exact absurd hfirst (by decide)
  · rintro ⟨hframes, hleft⟩
    have hlt : ∀ x, CanReturn d x → x.toNat < 8192 := by
      intro x hx
      rcases (mem_device_freeFpList d x).mp ((canReturn_iff d x).mp hx) with hnum | hmem
      · omega
      · exact hleft x hmem
    refine ⟨fun x hx => (recovered_iff x).mpr (hlt x hx), fun x y v w hx hy heq => ?_⟩
    have hfound : ∀ v x, CanReturn d x → entryFpn (decodeBytes .unsigned (byteOf (leafEntry v x))) = x := by
      intro v x hx
      have hbits := getLsbD_leafEntry v x
      exact (decode_byteOf ⟨hlt x hx, fun hs => by cases hs⟩ hbits.1 hbits.2).2
    rw [hfound v x hx, hfound w y hy] at heq
    exact heq

/-- The RAM of `os_0_mlq_paging`, and of `MM_FIXED_MEMSZ`. -/
theorem fpnsRecovered_fails : ¬ ∀ d, FpnsRecovered d := by
  intro h
  have hframes : (8192 : ℤ) < numfpOf (zeroDevice 0x10000000).maxSize := by decide
  have hmem := (mem_device_freeFpList (zeroDevice 0x10000000) 8192).mpr (.inl hframes)
  have hlt := (recovered_iff 8192).mp ((h _).recovered 8192 ((canReturn_iff _ _).mpr hmem))
  exact absurd hlt (by decide)

end LamiaAtrium
