import EmbeddedCode.Library.Bits
import EmbeddedCode.Library.Writes
import EmbeddedCode.Mmu.Model

/-!
# What the tables translate

The walk of the processor over the short descriptors of a table, and the translations that both
tables give. Large pages and supersections are not used, and have no translation here.
-/
namespace EmbeddedCode.Mmu

open Bits CInt Writes

abbrev Mem := ℕ → ℕ

/-- The memory attributes of a descriptor. -/
structure Attributes where
  tex : ℕ
  c : ℕ
  b : ℕ
  deriving DecidableEq, Repr

/-- Outer and inner write-back and write-allocate: the cacheable memory. -/
def writeBack : Attributes := ⟨1, 1, 1⟩

def stronglyOrdered : Attributes := ⟨0, 0, 0⟩

structure Translation where
  pa : ℕ
  attributes : Attributes
  deriving DecidableEq, Repr

/-- The walk through a second-level table. The type of a small page is in bit 1. -/
def walkLevel2 (mem : Mem) (base va : ℕ) : Option Translation :=
  let desc := mem (base + 4 * (va / 2 ^ 12 % 2 ^ 8))
  if desc / 2 % 2 = 1 then
    some ⟨desc / 2 ^ 12 * 2 ^ 12 + va % 2 ^ 12, desc / 2 ^ 6 % 2 ^ 3, desc / 2 ^ 3 % 2,
      desc / 2 ^ 2 % 2⟩
  else none

/-- The walk of the processor from the first-level table at `ttb`. -/
def walk (mem : Mem) (ttb va : ℕ) : Option Translation :=
  let desc := mem (ttb + 4 * (va / 2 ^ 20))
  if desc % 4 = 1 then walkLevel2 mem (desc / 2 ^ 10 * 2 ^ 10) va
  else if desc % 4 = 2 ∧ desc / 2 ^ 18 % 2 = 0 then
    some ⟨desc / 2 ^ 20 * 2 ^ 20 + va % 2 ^ 20, desc / 2 ^ 12 % 2 ^ 3, desc / 2 ^ 3 % 2,
      desc / 2 ^ 2 % 2⟩
  else none

def store (l : List Write) (mem : Mem) : Mem := writes Prod.fst Prod.snd l mem

/-- The section `s` of virtual addresses is mapped to the section `p`, as cacheable memory or
not. -/
inductive Mapped : ℕ → ℕ → Bool → Prop
  | sdram {s : ℕ} : 0x400 ≤ s → s < 0x800 → Mapped s s true
  | sfr {s : ℕ} : 0x100 ≤ s → s < 0x140 → Mapped s s false
  | sfrAgain {s : ℕ} : 0x100 ≤ s → s < 0x140 → Mapped (s + 0x100) s false

def attributes (cached : Bool) : Attributes := if cached then writeBack else stronglyOrdered

theorem attributes_true {tex c b : ℕ} (htex : tex = 1) (hc : c = 1) (hb : b = 1) :
    Attributes.mk tex c b = attributes true := by
  rw [htex, hc, hb]
  rfl

theorem attributes_false {tex c b : ℕ} (htex : tex = 0) (hc : c = 0) (hb : b = 0) :
    Attributes.mk tex c b = attributes false := by
  rw [htex, hc, hb]
  rfl

variable {s s' p p' k ttb va on off : ℕ} {c c' : Bool} {w : Write} {mem : Mem}

theorem Mapped.lt (h : Mapped s p c) : s < 0x800 ∧ p < 0x800 := by
  cases h <;> omega

theorem Mapped.unique (h : Mapped s p c) (h' : Mapped s p' c') : p = p' ∧ c = c' := by
  cases h <;> cases h' <;> first | exact ⟨rfl, rfl⟩ | omega

theorem mem_megabytes {f l i first last : ℕ} (hf : first = f * 2 ^ 20) (hl : last = l * 2 ^ 20) :
    i ∈ megabytes first last ↔ ∃ s, (f ≤ s ∧ s < l) ∧ s * 2 ^ 20 = i := by
  simp only [megabytes, hf, List.mem_map, List.mem_range]
  constructor
  · rintro ⟨k, hk, rfl⟩
    exact ⟨f + k, by omega, by omega⟩
  · rintro ⟨s, hs, rfl⟩
    exact ⟨s - f, by omega, by omega⟩

/-- The words that the three loops write are those of the sections that they map. -/
theorem mem_mapRanges {createDesc : ℕ → ℕ → ℕ → List Write} :
    w ∈ mapRanges on off createDesc ↔
      ∃ s p c, Mapped s p c ∧ w ∈ createDesc (s * 2 ^ 20) (p * 2 ^ 20) (if c then on else off) := by
  have hsdram {i : ℕ} := mem_megabytes (f := 0x400) (l := 0x800) (i := i) rfl rfl
  have hsfr {i : ℕ} := mem_megabytes (f := 0x100) (l := 0x140) (i := i) rfl rfl
  have hagain {s : ℕ} (hs : s < 0x140) :
      u32 (s * 2 ^ 20 + 0x10000000) = (s + 0x100) * 2 ^ 20 := by
    rw [u32_of_lt (by omega)]
    omega
  simp only [mapRanges, List.mem_append, List.mem_flatMap]
  constructor
  · rintro (⟨i, hi, hw⟩ | ⟨i, hi, hw⟩ | ⟨i, hi, hw⟩)
    · obtain ⟨s, ⟨h, h'⟩, rfl⟩ := hsdram.mp hi
      exact ⟨s, s, true, .sdram h h', hw⟩
    · obtain ⟨s, ⟨h, h'⟩, rfl⟩ := hsfr.mp hi
      exact ⟨s, s, false, .sfr h h', hw⟩
    · obtain ⟨s, ⟨h, h'⟩, rfl⟩ := hsfr.mp hi
      rw [hagain h'] at hw
      exact ⟨s + 0x100, s, false, .sfrAgain h h', hw⟩
  · rintro ⟨s, p, c, hmap, hw⟩
    cases hmap with
    | @sdram s h h' => exact .inl ⟨_, hsdram.mpr ⟨s, ⟨h, h'⟩, rfl⟩, hw⟩
    | @sfr s h h' => exact .inr (.inl ⟨_, hsfr.mpr ⟨s, ⟨h, h'⟩, rfl⟩, hw⟩)
    | sfrAgain h h' =>
        refine .inr (.inr ⟨_, hsfr.mpr ⟨p, ⟨h, h'⟩, rfl⟩, ?_⟩)
        rw [hagain h']
        exact hw

/-- The address of the descriptor of a section. -/
theorem level1_addr (halign : 2 ^ 14 ∣ ttb) (hs : s < 0x800) :
    ttb ||| (s * 2 ^ 20) >>> 20 <<< 2 = ttb + 4 * s := by
  rw [Nat.shiftRight_eq_div_pow, Nat.mul_div_cancel _ (by decide), Nat.shiftLeft_eq,
    or_eq_add halign (by omega)]
  omega

section Pages

/-- The second-level table of a section. -/
def level2Table (s : ℕ) : ℕ := Page.level2PageTableBase + s * 2 ^ 10

def pageFlag (c : Bool) : ℕ := if c then Page.cacheOn else Page.cacheOff

theorem pageFlag_lt (c : Bool) : pageFlag c < 2 ^ 12 ∧ 4 ∣ pageFlag c := by
  cases c <;> decide

theorem page_fields (base : ℕ) (hbase : 2 ^ 12 ∣ base) (c : Bool) :
    let desc := base + pageFlag c + 2
    desc / 2 % 2 = 1 ∧ desc / 2 ^ 12 * 2 ^ 12 = base ∧
      Attributes.mk (desc / 2 ^ 6 % 2 ^ 3) (desc / 2 ^ 3 % 2) (desc / 2 ^ 2 % 2) =
        attributes c := by
  intro desc
  have hon : pageFlag true = 2 ^ 6 + 2 ^ 3 + 2 ^ 2 := rfl
  have hoff : pageFlag false = 0 := rfl
  refine ⟨?_, ?_, ?_⟩
  · cases c <;> omega
  · cases c <;> omega
  · cases c with
    | true => exact attributes_true (by omega) (by omega) (by omega)
    | false => exact attributes_false (by omega) (by omega) (by omega)

theorem level2Table_eq (hs : s < 0x800) :
    u32 (u32 ((s * 2 ^ 20) >>> 20 * 1024) + Page.level2PageTableBase) = level2Table s := by
  have hin : u32 (s * 1024) = s * 1024 := u32_of_lt (by omega)
  rw [Nat.shiftRight_eq_div_pow, Nat.mul_div_cancel _ (by decide), hin]
  unfold level2Table Page.level2PageTableBase
  rw [u32_of_lt (by omega)]
  omega

theorem createPageLevel2Desc_eq (hs : s < 0x800) (hp : p < 0x800) (hk : k < 2 ^ 8) (c : Bool) :
    Page.createPageLevel2Desc (u32 (s * 2 ^ 20 + k * 4096)) (u32 (p * 2 ^ 20 + k * 4096))
        (pageFlag c) =
      (level2Table s + 4 * k, p * 2 ^ 20 + k * 2 ^ 12 + pageFlag c + 2) := by
  obtain ⟨hflag, hfour⟩ := pageFlag_lt c
  have hmva : u32 (s * 2 ^ 20 + k * 4096) = s * 2 ^ 20 + k * 4096 := u32_of_lt (by omega)
  have hpa : u32 (p * 2 ^ 20 + k * 4096) = p * 2 ^ 20 + k * 4096 := u32_of_lt (by omega)
  have hsection : (s * 2 ^ 20 + k * 4096) >>> 20 = (s * 2 ^ 20) >>> 20 := by
    rw [Nat.shiftRight_eq_div_pow, Nat.shiftRight_eq_div_pow]
    omega
  have hpage : ((s * 2 ^ 20 + k * 4096) >>> 12 &&& 0xff) <<< 2 = 4 * k := by
    rw [show 0xff = 2 ^ 8 - 1 from rfl, Nat.and_two_pow_sub_one_eq_mod,
      Nat.shiftRight_eq_div_pow, Nat.shiftLeft_eq]
    omega
  have hbase : (p * 2 ^ 20 + k * 4096) &&& 0xfffff000 = p * 2 ^ 20 + k * 2 ^ 12 :=
    and_mask (n := 20) (i := 12) (by omega) (by omega)
  unfold Page.createPageLevel2Desc
  rw [hmva, hpa, hsection, hpage, hbase, level2Table_eq hs]
  refine Prod.ext (or_eq_add (i := 10) ?_ (by omega)) ?_
  · unfold level2Table Page.level2PageTableBase
    omega
  · rw [or_eq_add (i := 12) (by omega) hflag]
    exact or_eq_add (i := 2) (by omega) (by decide)

theorem mem_createPageDesc (halign : 2 ^ 14 ∣ ttb) (hs : s < 0x800) (hp : p < 0x800) :
    w ∈ Page.createPageDesc ttb (s * 2 ^ 20) (p * 2 ^ 20) (pageFlag c) ↔
      w = (ttb + 4 * s, level2Table s + 1) ∨ ∃ k < 2 ^ 8,
        w = (level2Table s + 4 * k, p * 2 ^ 20 + k * 2 ^ 12 + pageFlag c + 2) := by
  have hdesc : level2Table s ||| Page.pageLevel1Descriptor = level2Table s + 1 := by
    apply or_eq_add (i := 10)
    · unfold level2Table Page.level2PageTableBase
      omega
    · decide
  unfold Page.createPageDesc
  rw [level1_addr halign hs, level2Table_eq hs, hdesc, List.mem_cons, List.mem_map]
  apply or_congr Iff.rfl
  constructor
  · rintro ⟨k, hk, rfl⟩
    have hk' := List.mem_range.mp hk
    exact ⟨k, hk', createPageLevel2Desc_eq hs hp hk' c⟩
  · rintro ⟨k, hk, rfl⟩
    exact ⟨k, List.mem_range.mpr hk, createPageLevel2Desc_eq hs hp hk c⟩

/-- The words that the pages of all sections need. -/
theorem mem_pageTable (halign : 2 ^ 14 ∣ ttb) :
    w ∈ Page.createTranslationTable ttb ↔ ∃ s p c, Mapped s p c ∧
      (w = (ttb + 4 * s, level2Table s + 1) ∨ ∃ k < 2 ^ 8,
        w = (level2Table s + 4 * k, p * 2 ^ 20 + k * 2 ^ 12 + pageFlag c + 2)) := by
  refine mem_mapRanges.trans (exists_congr fun s => exists_congr fun p => exists_congr fun c => ?_)
  exact and_congr_right fun hmap => mem_createPageDesc halign hmap.lt.1 hmap.lt.2

/-- The first-level table does not overlap with the second-level tables. -/
def Apart (ttb : ℕ) : Prop := ttb + 0x4000 ≤ 0x47000000 ∨ 0x47400000 ≤ ttb

variable (halign : 2 ^ 14 ∣ ttb) (hapart : Apart ttb)

include halign hapart

theorem page_level1 (hmap : Mapped s p c) :
    store (Page.createTranslationTable ttb) mem (ttb + 4 * s) = level2Table s + 1 := by
  have hs := hmap.lt.1
  apply writes_of_agree
  · intro w hw haddr
    obtain ⟨s', p', c', hmap', rfl | ⟨k, hk, rfl⟩⟩ := (mem_pageTable halign).mp hw
    · have hss : s' = s := by
        simp only at haddr
        omega
      rw [hss]
    · have hs' := hmap'.lt.1
      unfold Apart at hapart
      simp only [level2Table, Page.level2PageTableBase] at haddr
      omega
  · exact .inr ⟨_, (mem_pageTable halign).mpr ⟨s, p, c, hmap, .inl rfl⟩, rfl⟩

theorem page_level2 (hmap : Mapped s p c) (hk : k < 2 ^ 8) :
    store (Page.createTranslationTable ttb) mem (level2Table s + 4 * k) =
      p * 2 ^ 20 + k * 2 ^ 12 + pageFlag c + 2 := by
  have hs := hmap.lt.1
  apply writes_of_agree
  · intro w hw haddr
    obtain ⟨s', p', c', hmap', rfl | ⟨k', hk', rfl⟩⟩ := (mem_pageTable halign).mp hw
    · have hs' := hmap'.lt.1
      unfold Apart at hapart
      simp only [level2Table, Page.level2PageTableBase] at haddr
      omega
    · simp only [level2Table, Page.level2PageTableBase] at haddr
      obtain ⟨rfl, rfl⟩ : s' = s ∧ k' = k := by omega
      obtain ⟨rfl, rfl⟩ := hmap'.unique hmap
      rfl
  · exact .inr ⟨_, (mem_pageTable halign).mpr ⟨s, p, c, hmap, .inr ⟨k, hk, rfl⟩⟩, rfl⟩

theorem walk_page (hmap : Mapped (va / 2 ^ 20) p c) :
    walk (store (Page.createTranslationTable ttb) mem) ttb va =
      some ⟨p * 2 ^ 20 + va % 2 ^ 20, attributes c⟩ := by
  have hk : va / 2 ^ 12 % 2 ^ 8 < 2 ^ 8 := Nat.mod_lt _ (by decide)
  have hbase : (level2Table (va / 2 ^ 20) + 1) / 2 ^ 10 * 2 ^ 10 = level2Table (va / 2 ^ 20) := by
    unfold level2Table Page.level2PageTableBase
    omega
  have htype : (level2Table (va / 2 ^ 20) + 1) % 4 = 1 := by
    unfold level2Table Page.level2PageTableBase
    omega
  unfold walk
  simp only [page_level1 halign hapart hmap, if_pos htype, hbase]
  unfold walkLevel2
  simp only [page_level2 halign hapart hmap hk]
  obtain ⟨hsmall, hpa, hattr⟩ :=
    page_fields (p * 2 ^ 20 + va / 2 ^ 12 % 2 ^ 8 * 2 ^ 12) (by omega) c
  have hoffset : va % 2 ^ 20 = va % 2 ^ 12 + 2 ^ 12 * (va / 2 ^ 12 % 2 ^ 8) :=
    Nat.mod_mul (a := 2 ^ 12) (b := 2 ^ 8)
  rw [if_pos hsmall, hpa, hattr, hoffset, Nat.mul_comm (2 ^ 12), Nat.add_assoc,
    Nat.add_comm (va % 2 ^ 12)]

omit hapart in
/-- Nothing outside the two levels of tables is written. -/
theorem page_writes (hw : w ∈ Page.createTranslationTable ttb) :
    (ttb ≤ w.1 ∧ w.1 < ttb + 0x4000) ∨ (0x47000000 ≤ w.1 ∧ w.1 < 0x47400000) := by
  obtain ⟨s, p, c, hmap, rfl | ⟨k, hk, rfl⟩⟩ := (mem_pageTable halign).mp hw
  · have hs := hmap.lt.1
    left
    constructor <;> simp only <;> omega
  · have hs := hmap.lt.1
    right
    constructor <;> simp only [level2Table, Page.level2PageTableBase] <;> omega

end Pages

section Sections

def sectionFlag (c : Bool) : ℕ := if c then Section.cacheOn else Section.cacheOff

theorem sectionFlag_lt (c : Bool) : sectionFlag c < 2 ^ 20 ∧ 4 ∣ sectionFlag c := by
  cases c <;> decide

theorem section_fields (p : ℕ) (c : Bool) :
    let desc := p * 2 ^ 20 + sectionFlag c + 2
    (desc % 4 = 2 ∧ desc / 2 ^ 18 % 2 = 0) ∧ desc / 2 ^ 20 * 2 ^ 20 = p * 2 ^ 20 ∧
      Attributes.mk (desc / 2 ^ 12 % 2 ^ 3) (desc / 2 ^ 3 % 2) (desc / 2 ^ 2 % 2) =
        attributes c := by
  intro desc
  have hon : sectionFlag true = 2 ^ 12 + 2 ^ 3 + 2 ^ 2 := rfl
  have hoff : sectionFlag false = 0 := rfl
  refine ⟨?_, ?_, ?_⟩
  · cases c <;> omega
  · cases c <;> omega
  · cases c with
    | true => exact attributes_true (by omega) (by omega) (by omega)
    | false => exact attributes_false (by omega) (by omega) (by omega)

theorem mem_sectionTable (halign : 2 ^ 14 ∣ ttb) :
    w ∈ Section.createTranslationTable ttb ↔ ∃ s p c, Mapped s p c ∧
      w = (ttb + 4 * s, p * 2 ^ 20 + sectionFlag c + 2) := by
  refine mem_mapRanges.trans (exists_congr fun s => exists_congr fun p => exists_congr fun c => ?_)
  refine and_congr_right fun hmap => ?_
  obtain ⟨hs, hp⟩ := hmap.lt
  obtain ⟨hflag, hfour⟩ := sectionFlag_lt c
  have hbase : (p * 2 ^ 20) &&& 0xfff00000 = p * 2 ^ 20 :=
    and_mask (n := 12) (i := 20) (by omega) (by omega)
  have hdesc : p * 2 ^ 20 ||| sectionFlag c ||| Section.sectionDescriptor =
      p * 2 ^ 20 + sectionFlag c + 2 := by
    rw [or_eq_add (i := 20) (by omega) hflag]
    exact or_eq_add (i := 2) (by omega) (by decide)
  change w ∈ Section.createSectionDesc ttb (s * 2 ^ 20) (p * 2 ^ 20) (sectionFlag c) ↔ _
  unfold Section.createSectionDesc
  rw [level1_addr halign hs, hbase, hdesc, List.mem_singleton]

theorem section_level1 (halign : 2 ^ 14 ∣ ttb) (hmap : Mapped s p c) :
    store (Section.createTranslationTable ttb) mem (ttb + 4 * s) =
      p * 2 ^ 20 + sectionFlag c + 2 := by
  apply writes_of_agree
  · intro w hw haddr
    obtain ⟨s', p', c', hmap', rfl⟩ := (mem_sectionTable halign).mp hw
    obtain rfl : s' = s := by
      simp only at haddr
      omega
    obtain ⟨rfl, rfl⟩ := hmap'.unique hmap
    rfl
  · exact .inr ⟨_, (mem_sectionTable halign).mpr ⟨s, p, c, hmap, rfl⟩, rfl⟩

theorem walk_section (halign : 2 ^ 14 ∣ ttb) (hmap : Mapped (va / 2 ^ 20) p c) :
    walk (store (Section.createTranslationTable ttb) mem) ttb va =
      some ⟨p * 2 ^ 20 + va % 2 ^ 20, attributes c⟩ := by
  obtain ⟨htype, hpa, hattr⟩ := section_fields p c
  unfold walk
  simp only [section_level1 halign hmap]
  rw [if_neg (by omega), if_pos htype, hpa, hattr]

end Sections

/-- Both tables translate the memory and the registers in the same way, and the memory alone is
cacheable. The pages need no more memory than the two levels of tables. -/
theorem tables_translate (ttb : ℕ) (halign : 2 ^ 14 ∣ ttb) (hapart : Apart ttb)
    (mem mem' : Mem) :
    let page := walk (store (Page.createTranslationTable ttb) mem) ttb
    let sections := walk (store (Section.createTranslationTable ttb) mem') ttb
    (∀ va, 0x40000000 ≤ va → va < 0x80000000 →
      page va = some ⟨va, writeBack⟩ ∧ sections va = some ⟨va, writeBack⟩) ∧
    (∀ va, 0x10000000 ≤ va → va < 0x14000000 →
      page va = some ⟨va, stronglyOrdered⟩ ∧ sections va = some ⟨va, stronglyOrdered⟩) ∧
    (∀ va, 0x20000000 ≤ va → va < 0x24000000 →
      page va = some ⟨va - 0x10000000, stronglyOrdered⟩ ∧
        sections va = some ⟨va - 0x10000000, stronglyOrdered⟩) ∧
    (∀ w ∈ Page.createTranslationTable ttb,
      (ttb ≤ w.1 ∧ w.1 < ttb + 0x4000) ∨ (0x47000000 ≤ w.1 ∧ w.1 < 0x47400000)) := by
  intro page sections
  have hboth : ∀ {va p c}, Mapped (va / 2 ^ 20) p c →
      page va = some ⟨p * 2 ^ 20 + va % 2 ^ 20, attributes c⟩ ∧
        sections va = some ⟨p * 2 ^ 20 + va % 2 ^ 20, attributes c⟩ :=
    fun hmap => ⟨walk_page halign hapart hmap, walk_section halign hmap⟩
  refine ⟨?_, ?_, ?_, fun w hw => page_writes halign hw⟩
  · intro va h h'
    have hpa : va / 2 ^ 20 * 2 ^ 20 + va % 2 ^ 20 = va := by omega
    have hwalk := hboth (.sdram (s := va / 2 ^ 20) (by omega) (by omega))
    rwa [hpa] at hwalk
  · intro va h h'
    have hpa : va / 2 ^ 20 * 2 ^ 20 + va % 2 ^ 20 = va := by omega
    have hwalk := hboth (.sfr (s := va / 2 ^ 20) (by omega) (by omega))
    rwa [hpa] at hwalk
  · intro va h h'
    have hpa : (va / 2 ^ 20 - 0x100) * 2 ^ 20 + va % 2 ^ 20 = va - 0x10000000 := by omega
    have hmap := Mapped.sfrAgain (s := va / 2 ^ 20 - 0x100) (by omega) (by omega)
    rw [Nat.sub_add_cancel (by omega)] at hmap
    have hwalk := hboth hmap
    rwa [hpa] at hwalk

/-- The table at the start of the memory. -/
theorem tables_translate_sdram :
    walk (store (Page.createTranslationTable 0x40000000) fun _ => 0) 0x40000000 0x50001234 =
      some ⟨0x50001234, writeBack⟩ :=
  ((tables_translate 0x40000000 (by decide) (.inl (by decide)) (fun _ => 0) fun _ => 0).1
    0x50001234 (by decide) (by decide)).1

end EmbeddedCode.Mmu
