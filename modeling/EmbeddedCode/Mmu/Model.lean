import EmbeddedCode.Library.CInt
import Mathlib.Data.List.Basic

/-!
# The translation tables

`mmu.c` of `30blkdrv_mmu_bootm/04bootm`, which maps pages, and of `03mmu_section/section`,
which maps sections. A function is the list of the words that it writes, in their order, each
with its address.
-/
namespace EmbeddedCode.Mmu

open CInt

abbrev Write := ℕ × ℕ

/-- The values of `i` in `for (i = first; i < last; i += (1024 * 1024))`. -/
def megabytes (first last : ℕ) : List ℕ :=
  (List.range ((last - first) / (1024 * 1024))).map fun k => first + k * (1024 * 1024)

/-- The three loops of both `create_translation_table`. -/
def mapRanges (cacheOn cacheOff : ℕ) (createDesc : ℕ → ℕ → ℕ → List Write) : List Write :=
  (megabytes 0x40000000 0x80000000).flatMap (fun i => createDesc i i cacheOn) ++
  ((megabytes 0x10000000 0x14000000).flatMap (fun i => createDesc i i cacheOff) ++
  (megabytes 0x10000000 0x14000000).flatMap
    (fun i => createDesc (u32 (i + 0x10000000)) i cacheOff))

namespace Page

def cacheOn : ℕ := 1 <<< 6 ||| 1 <<< 3 ||| 1 <<< 2

def cacheOff : ℕ := 0

def level2PageTableBase : ℕ := 0x47000000

def pageLevel1Descriptor : ℕ := 0b01

def pageLevel2Descriptor : ℕ := 0b10

/-- The parameter `ttb` of the source is not used. -/
def createPageLevel2Desc (mva pa cacheFlag : ℕ) : Write :=
  (u32 (u32 ((mva >>> 20) * 1024) + level2PageTableBase) ||| ((mva >>> 12) &&& 0xff) <<< 2,
    (pa &&& 0xfffff000) ||| cacheFlag ||| pageLevel2Descriptor)

def createPageDesc (ttb mva pa cacheFlag : ℕ) : List Write :=
  (ttb ||| (mva >>> 20) <<< 2,
    u32 (u32 ((mva >>> 20) * 1024) + level2PageTableBase) ||| pageLevel1Descriptor) ::
  (List.range 256).map fun i =>
    createPageLevel2Desc (u32 (mva + i * 4096)) (u32 (pa + i * 4096)) cacheFlag

def createTranslationTable (ttb : ℕ) : List Write :=
  mapRanges cacheOn cacheOff (createPageDesc ttb)

end Page

namespace Section

def cacheOn : ℕ := 1 <<< 12 ||| 1 <<< 3 ||| 1 <<< 2

def cacheOff : ℕ := 0

def sectionDescriptor : ℕ := 0b10

def createSectionDesc (ttb mva pa cacheFlag : ℕ) : List Write :=
  [(ttb ||| (mva >>> 20) <<< 2, (pa &&& 0xfff00000) ||| cacheFlag ||| sectionDescriptor)]

def createTranslationTable (ttb : ℕ) : List Write :=
  mapRanges cacheOn cacheOff (createSectionDesc ttb)

end Section

end EmbeddedCode.Mmu
