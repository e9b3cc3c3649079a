import InterchangeDb.Lib.Bisect
import InterchangeDb.Lsm.MergeIterator
import InterchangeDb.Wal.Record

/-! Sorted tables: entries cut into blocks, with an index of first keys and a bloom filter. -/
namespace InterchangeDb
open List Option Prod
variable [Crc32]

/-- The set bits of the filter's bit array. -/
structure BloomFilter where
  bits : Finset Nat
  bitCount : Nat
  hashCount : Nat

namespace BloomFilter

def bitsPerKey : Nat := 10
def hashCountDefault : Nat := 7
def minBitCount : Nat := 64

def doubleHash (key : Bytes) : Nat × Nat := (Crc32.hash key, Crc32.hash (key ++ [0x9E]))

/-- Machine words wrap at 64 bits. -/
def combinedHash (h1 h2 i : Nat) : Nat := (h1 + i * h2 % 2^64) % 2^64

/-- The bits of a key in an array of a given size. -/
def positions (key : Bytes) (hashCount bitCount : Nat) : List Nat :=
  (List.range hashCount).map (fun i => combinedHash (doubleHash key).1 (doubleHash key).2 i % bitCount)

/-- Full bytes for the bits of all keys. -/
def byteCount (keys : Nat) : Nat := (max (keys * bitsPerKey) minBitCount + 7) / 8

def build (keys : List Bytes) : BloomFilter :=
  let bitCount := byteCount keys.length * 8
  ⟨(keys.flatMap (fun key => positions key hashCountDefault bitCount)).toFinset, bitCount, hashCountDefault⟩

def mayContain (b : BloomFilter) (key : Bytes) : Bool :=
  if b.bitCount = 0 then false else (positions key b.hashCount b.bitCount).all (fun p => decide (p ∈ b.bits))

theorem mayContain_build {keys : List Bytes} {key : Bytes} (h : key ∈ keys) : (build keys).mayContain key = true := by
  have hpos : byteCount keys.length * 8 ≠ 0 := by
    have : 64 ≤ max (keys.length * bitsPerKey) minBitCount := le_max_right _ _
    unfold byteCount
    omega
  unfold mayContain build
  rw [if_neg hpos,List.all_eq_true]
  intro p hp
  rw [decide_eq_true_eq,List.mem_toFinset,List.mem_flatMap]
  exact ⟨key,h,hp⟩

end BloomFilter

structure SSTableMeta where
  id : Nat
  firstKey : Bytes
  lastKey : Bytes
  fileSize : Nat
  entryCount : Nat
  deriving DecidableEq, Repr

/-- A table file: its data blocks and its filter. The index lists the first key of each block. -/
structure SSTable where
  blocks : List (List Entry)
  bloom : BloomFilter

namespace SSTable
variable {block es buf entries : List Entry} {blocks : List (List Entry)} {key : Bytes} {id : Nat} (t : SSTable)

def blockSize : Nat := 4096
def blockDataCapacity : Nat := blockSize - 2
def footerSize : Nat := 32

/-- Two length fields, the key and the value. -/
def entrySize (e : Entry) : Nat := 2 + e.1.length + 2 + e.2.elim 0 List.length

def blockLen (block : List Entry) : Nat := (block.map entrySize).sum

/-- Cut the entries into blocks. A block that is written must fit. -/
def splitBlocks : List Entry → List Entry → Option (List (List Entry))
  | [], buf => if buf = [] then some [] else if blockLen buf ≤ blockDataCapacity then some [buf] else none
  | e::es, buf =>
    if buf ≠ [] ∧ blockDataCapacity < blockLen buf + entrySize e then
      if blockLen buf ≤ blockDataCapacity then (splitBlocks es [e]).map (buf :: ·) else none
    else splitBlocks es (buf ++ [e])

def blockFirstKey (block : List Entry) : Bytes := (block.head?.map Prod.fst).getD []

def index : List Bytes := t.blocks.map blockFirstKey

def iter : List Entry := t.blocks.flatten

def firstKey : Bytes := t.index.headD []

def lastKey : Bytes := ((t.blocks.getLastD []).getLast?.map Prod.fst).getD []

def fileSize (blocks : List (List Entry)) (keys : Nat) : Nat :=
  blocks.length * blockSize + (5 + BloomFilter.byteCount keys) +
    ((blocks.map (fun block => 2 + (blockFirstKey block).length + 4)).sum + 4) + footerSize

/-- The first pass of the binary search: how many blocks start at or before the key. -/
def blocksUpTo (key : Bytes) : Nat := partitionPoint (fun first => decide (first ≤ key)) t.index

/-- The last block that starts at or before the key; there must be one. -/
def findBlockForKey (key : Bytes) : Option Nat :=
  if t.blocksUpTo key = 0 then none else some (t.blocksUpTo key - 1)

def mayContain (key : Bytes) : Bool :=
  if key < t.firstKey ∨ t.lastKey < key then false else t.bloom.mayContain key

/-- Scan a block until the key is met or passed. -/
def scanBlock (key : Bytes) : List Entry → Option (Option Bytes)
  | [] => none
  | e::es => if e.1 = key then some e.2 else if key < e.1 then none else scanBlock key es

/-- Point lookup. The outer none is a failed assertion. -/
def get (key : Bytes) : Option (Option (Option Bytes)) :=
  if !t.bloom.mayContain key then some none
  else if key < t.firstKey ∨ t.lastKey < key then some none
  else (t.findBlockForKey key).map (fun i => scanBlock key (t.blocks.getD i []))

/-- Write sorted entries to a table file. No entries, no file; none is a failed assertion. -/
def write (id : Nat) (entries : List Entry) : Option (Option (SSTableMeta × SSTable)) :=
  (splitBlocks entries []).bind (fun blocks =>
    match entries.head?, entries.getLast? with
    | some first, some last =>
      let keys := entries.map Prod.fst
      -- block offsets and the filter's bit count are stored in 32 bits
      if blocks.length * blockSize < 2^32 ∧ BloomFilter.byteCount keys.length * 8 < 2^32 then
        some (some (⟨id, first.1, last.1, fileSize blocks keys.length, entries.length⟩,
          ⟨blocks, BloomFilter.build keys⟩))
      else none
    | _, _ => some none)

open OrdMap (find)
open Layers

/-- What every written table satisfies: entries in ascending order, no empty block, and a
filter that knows every key. -/
structure Sound (t : SSTable) : Prop where
  sorted : Ascending t.iter
  nonempty : t.blocks ≠ []
  full : ∀ block ∈ t.blocks, block ≠ []
  known : ∀ e ∈ t.iter, t.bloom.mayContain e.1 = true

variable {t}

omit [Crc32] in
private theorem scanBlock_eq (h : Ascending block) (key : Bytes) : scanBlock key block = find key block := by
  induction block with
  | nil => rfl
  | cons e es ih =>
    obtain ⟨he,hes⟩ := pairwise_cons.mp h
    simp only [scanBlock,find,ih hes]
    split_ifs with hk hlt
    · rfl
    · -- the rest of the block lies above the key
      exact (find_eq_none_iff.mpr (fun x hx => (hlt.trans (he x hx)).ne')).symm
    · rfl

omit [Crc32] in
private theorem splitBlocks_spec (h : splitBlocks es buf = some blocks) :
    blocks.flatten = buf ++ es ∧ ∀ block ∈ blocks, block ≠ [] ∧ blockLen block ≤ blockDataCapacity := by
  fun_induction splitBlocks es buf generalizing blocks with
  | case1 =>
    cases h
    simp
  | case2 buf hne hfit =>
    cases h
    exact ⟨by simp,forall_mem_singleton.mpr ⟨hne,hfit⟩⟩
  | case3 => cases h
  | case4 e es buf hover hfit ih =>
    obtain ⟨bs,hbs,rfl⟩ := map_eq_some_iff.mp h
    obtain ⟨hflat,hfull⟩ := ih hbs
    exact ⟨by simp [hflat],forall_mem_cons.mpr ⟨⟨hover.1,hfit⟩,hfull⟩⟩
  | case5 => cases h
  | case6 e es buf hover ih =>
    obtain ⟨hflat,hfull⟩ := ih h
    exact ⟨by simp [hflat],hfull⟩

omit [Crc32] in
private theorem blockFirstKey_length_le (block : List Entry) : (blockFirstKey block).length ≤ blockLen block := by
  cases block with
  | nil => exact Nat.zero_le _
  | cons e es =>
    simp only [blockFirstKey,blockLen,entrySize,head?_cons,map_some,getD_some,map_cons,sum_cons]
    omega

omit [Crc32] in
private theorem splitBlocks_isSome (hbuf : blockLen buf ≤ blockDataCapacity)
    (hes : ∀ e ∈ es, entrySize e ≤ blockDataCapacity) : (splitBlocks es buf).isSome := by
  fun_induction splitBlocks es buf with
  | case1 => rfl
  | case2 => rfl
  | case3 buf hne hfit => exact (hfit hbuf).elim
  | case4 e es buf hover hfit ih =>
    rw [isSome_map]
    exact ih (by simpa [blockLen] using hes e mem_cons_self) (fun x hx => hes x (mem_cons_of_mem _ hx))
  | case5 e es buf hover hfit => exact (hfit hbuf).elim
  | case6 e es buf hover ih =>
    refine ih ?_ (fun x hx => hes x (mem_cons_of_mem _ hx))
    have he := hes e mem_cons_self
    by_cases hb : buf = []
    · subst hb
      simpa [blockLen] using he
    · have : ¬ blockDataCapacity < blockLen buf + entrySize e := fun hlt => hover ⟨hb,hlt⟩
      simp only [blockLen,map_append,sum_append,map_cons,map_nil,sum_cons,sum_nil] at *
      omega

omit [Crc32] in
private theorem iter_eq_cons (hne : t.blocks ≠ []) (hfull : ∀ block ∈ t.blocks, block ≠ []) :
    ∃ e es, t.iter = e::es ∧ t.firstKey = e.1 := by
  cases hb : t.blocks with
  | nil => exact (hne hb).elim
  | cons block blocks =>
    cases block with
    | nil => exact (hfull [] (by simp [hb]) rfl).elim
    | cons e es => exact ⟨e,es ++ blocks.flatten,by simp [iter,hb],by simp [firstKey,index,hb,blockFirstKey]⟩

omit [Crc32] in
private theorem iter_eq_concat (hne : t.blocks ≠ []) (hfull : ∀ block ∈ t.blocks, block ≠ []) :
    ∃ es e, t.iter = es ++ [e] ∧ t.lastKey = e.1 := by
  obtain ⟨blocks,block,hb⟩ := (eq_nil_or_concat' t.blocks).resolve_left hne
  have hblock : block ≠ [] := hfull block (by simp [hb])
  obtain ⟨es,e,rfl⟩ := (eq_nil_or_concat' block).resolve_left hblock
  exact ⟨blocks.flatten ++ es,e,by simp [iter,hb],by simp [lastKey,hb]⟩

section

variable (h : t.Sound)
include h

theorem Sound.key_bounds : ∀ e ∈ t.iter, t.firstKey ≤ e.1 ∧ e.1 ≤ t.lastKey := by
  intro e he
  obtain ⟨a,as,ha,hfirst⟩ := iter_eq_cons h.nonempty h.full
  obtain ⟨bs,b,hb,hlast⟩ := iter_eq_concat h.nonempty h.full
  have hs := h.sorted
  constructor
  · rw [hfirst]
    rw [ha] at he hs
    rcases mem_cons.mp he with rfl | he
    · exact le_rfl
    · exact (rel_of_pairwise_cons hs he).le
  · rw [hlast]
    rw [hb] at he hs
    rcases mem_append.mp he with he | he
    · exact ((pairwise_append.mp hs).2.2 e he b (by simp)).le
    · rw [mem_singleton.mp he]

theorem Sound.firstKey_mem : ∃ e ∈ t.iter, e.1 = t.firstKey := by
  obtain ⟨a,as,ha,hfirst⟩ := iter_eq_cons h.nonempty h.full
  exact ⟨a,by simp [ha],hfirst.symm⟩

theorem Sound.lastKey_mem : ∃ e ∈ t.iter, e.1 = t.lastKey := by
  obtain ⟨bs,b,hb,hlast⟩ := iter_eq_concat h.nonempty h.full
  exact ⟨b,by simp [hb],hlast.symm⟩

theorem Sound.find_outside (hk : key < t.firstKey ∨ t.lastKey < key) :
    find key t.iter = none := by
  refine find_eq_none_iff.mpr (fun e he heq => ?_)
  obtain ⟨hlo,hhi⟩ := h.key_bounds e he
  rw [heq] at hlo hhi
  rcases hk with hk | hk
  · exact absurd hk (not_lt.mpr hlo)
  · exact absurd hk (not_lt.mpr hhi)

theorem Sound.find_unknown (hk : t.bloom.mayContain key = false) :
    find key t.iter = none := by
  refine find_eq_none_iff.mpr (fun e he heq => ?_)
  rw [← heq,h.known e he] at hk
  cases hk

theorem Sound.find_of_not_mayContain (hk : t.mayContain key = false) :
    find key t.iter = none := by
  unfold mayContain at hk
  split_ifs at hk with hout
  · exact h.find_outside hout
  · exact h.find_unknown hk

private theorem find_block (hk : t.firstKey ≤ key) :
    ∃ i, t.findBlockForKey key = some i ∧ Ascending (t.blocks.getD i []) ∧ find key (t.blocks.getD i []) = find key t.iter := by
  -- the blocks that start at or before the key stand first
  have hsorted : t.blocks.Pairwise (fun a b => ∀ x ∈ a, ∀ y ∈ b, x.1 < y.1) := (pairwise_flatten.mp h.sorted).2
  have hhead : ∀ block ∈ t.blocks, ∃ e es, block = e::es := fun block hb => by
    cases block with
    | nil => exact (h.full [] hb rfl).elim
    | cons e es => exact ⟨e,es,rfl⟩
  have hpart : t.index.Pairwise (fun a b => decide (b ≤ key) = true → decide (a ≤ key) = true) := by
    unfold index
    rw [pairwise_map]
    refine hsorted.imp_of_mem (fun {a b} ha hb hlt hle => ?_)
    obtain ⟨x,xs,rfl⟩ := hhead a ha
    obtain ⟨y,ys,rfl⟩ := hhead b hb
    have hxy := hlt x mem_cons_self y mem_cons_self
    exact decide_eq_true (hxy.le.trans (of_decide_eq_true hle))
  obtain ⟨as,bs,hcut,has,hbs,hpoint⟩ := exists_partition hpart
  obtain ⟨before,after,hblocks,rfl,rfl⟩ := map_eq_append_iff.mp hcut
  have hbefore : before ≠ [] := by
    rintro rfl
    cases hb : t.blocks with
    | nil => exact h.nonempty hb
    | cons block blocks =>
      have hmem : block ∈ after := by
        rw [hb,nil_append] at hblocks
        simp [← hblocks]
      have := hbs _ (mem_map_of_mem hmem)
      rw [decide_eq_false_iff_not] at this
      apply this
      rwa [firstKey,index,hb] at hk
  obtain ⟨init,block,rfl⟩ := (eq_nil_or_concat' before).resolve_left hbefore
  have hiter : t.iter = init.flatten ++ (block ++ after.flatten) := by simp [iter,hblocks]
  have hsort := h.sorted
  rw [hiter] at hsort
  obtain ⟨-,hright,hcross⟩ := pairwise_append.mp hsort
  obtain ⟨hblock,hafter,-⟩ := pairwise_append.mp hright
  have hup : t.blocksUpTo key = init.length + 1 := by
    rw [blocksUpTo,hpoint]
    simp
  have hget : t.blocks.getD init.length [] = block := by simp [hblocks]
  refine ⟨init.length,by simp [findBlockForKey,hup],by rwa [hget],?_⟩
  rw [hget,hiter,find_append,find_append]
  obtain ⟨e,es,hbe⟩ := hhead block (by simp [hblocks])
  have hle : e.1 ≤ key := by
    have := has _ (mem_map_of_mem (mem_append_right init (mem_singleton_self block)))
    rw [hbe] at this
    exact of_decide_eq_true this
  have hinit : find key init.flatten = none := by
    refine find_eq_none_iff.mpr (fun x hx => ?_)
    exact (lt_of_lt_of_le (hcross x hx e (by simp [hbe])) hle).ne
  have hrest : find key after.flatten = none := by
    refine find_eq_none_iff.mpr (fun x hx => ?_)
    obtain ⟨b,hb,hxb⟩ := mem_flatten.mp hx
    obtain ⟨y,ys,hby⟩ := hhead b (by simp [hblocks,hb])
    have hyk := hbs _ (mem_map_of_mem hb)
    rw [hby,decide_eq_false_iff_not,not_le] at hyk
    have hys : Ascending b := (pairwise_flatten.mp hafter).1 b hb
    rw [hby] at hys hxb
    rcases mem_cons.mp hxb with rfl | hxb
    · exact hyk.ne'
    · exact (hyk.trans (rel_of_pairwise_cons hys hxb)).ne'
  rw [hinit,hrest]
  simp

/-- A point lookup finds the entry of the key, and fails no assertion. -/
theorem Sound.get_eq (key : Bytes) : t.get key = some (find key t.iter) := by
  unfold get
  split_ifs with hbloom hout
  · rw [h.find_unknown (by simpa using hbloom)]
  · rw [h.find_outside hout]
  · obtain ⟨i,hi,hasc,hfind⟩ := find_block h (not_lt.mp (fun hlt => hout (.inl hlt)))
    rw [hi,map_some,scanBlock_eq hasc,hfind]

end

/-- What is written is what is read back. -/
theorem write_eq_some (hs : Ascending entries) {m : SSTableMeta} (h : write id entries = some (some (m,t))) :
    t.Sound ∧ t.iter = entries ∧ m.id = id ∧ m.firstKey = t.firstKey ∧ m.lastKey = t.lastKey := by
  obtain ⟨blocks,hblocks,hrest⟩ := bind_eq_some_iff.mp h
  obtain ⟨hflat,hsplit⟩ := splitBlocks_spec hblocks
  have hfull := fun block hb => (hsplit block hb).1
  rw [nil_append] at hflat
  split at hrest
  · next first last hfirst hlast =>
    dsimp only at hrest
    split_ifs at hrest with hsize
    simp only [Option.some.injEq] at hrest
    obtain ⟨rfl,rfl⟩ := hrest
    have hne : blocks ≠ [] := by
      rintro rfl
      rw [← hflat] at hfirst
      cases hfirst
    obtain ⟨a,as,ha,hfirst'⟩ := iter_eq_cons (t := ⟨blocks,.build (entries.map fst)⟩) hne hfull
    obtain ⟨bs,b,hb,hlast'⟩ := iter_eq_concat (t := ⟨blocks,.build (entries.map fst)⟩) hne hfull
    refine ⟨⟨by rwa [iter,hflat],hne,hfull,fun e he => ?_⟩,hflat,rfl,?_,?_⟩
    · rw [iter,hflat] at he
      exact BloomFilter.mayContain_build (mem_map_of_mem he)
    · rw [hfirst']
      rw [← hflat,show blocks.flatten = a::as from ha] at hfirst
      exact congrArg fst (some.inj hfirst).symm
    · rw [hlast']
      rw [← hflat,show blocks.flatten = bs ++ [b] from hb] at hlast
      exact congrArg fst (by simpa using hlast.symm)
  · cases hrest

/-- Up to 2^20 entries that fit a block each are always written. -/
theorem write_isSome (hfit : ∀ e ∈ entries, entrySize e ≤ blockDataCapacity)
    (hlen : entries.length < 2^20) : ∃ x, write id entries = some x := by
  have hempty : blockLen [] ≤ blockDataCapacity := by decide
  obtain ⟨blocks,hblocks⟩ := isSome_iff_exists.mp (splitBlocks_isSome hempty hfit)
  obtain ⟨hflat,hfull⟩ := splitBlocks_spec hblocks
  have hcount : blocks.length ≤ entries.length := by
    rw [← nil_append entries,← hflat,length_flatten,← length_map length]
    apply length_le_sum_of_one_le
    rw [List.forall_mem_map]
    exact fun block hb => length_pos_iff.mpr (hfull block hb).1
  rw [write,hblocks,bind_some]
  split
  · refine ⟨_,if_pos ⟨?_,?_⟩⟩
    · rw [blockSize]
      omega
    · have hmax : max (entries.length * BloomFilter.bitsPerKey) BloomFilter.minBitCount ≤ 2^24 :=
        max_le (by rw [BloomFilter.bitsPerKey]; omega) (by decide)
      rw [length_map,BloomFilter.byteCount]
      omega
  · exact ⟨_,rfl⟩

theorem write_sizes {m : SSTableMeta}
    (h : write id entries = some (some (m,t))) : m.fileSize < 2^64 ∧ m.entryCount < 2^64 := by
  obtain ⟨blocks,hblocks,hrest⟩ := bind_eq_some_iff.mp h
  split at hrest
  · next first last hfirst hlast =>
    dsimp only at hrest
    split_ifs at hrest with hsize
    simp only [Option.some.injEq] at hrest
    obtain ⟨rfl,rfl⟩ := hrest
    have hindex : (blocks.map (fun block => 2 + (blockFirstKey block).length + 4)).sum ≤ blocks.length * (blockSize + 6) := by
      rw [← length_map (fun block => 2 + (blockFirstKey block).length + 4)]
      apply sum_le_card_nsmul
      rw [List.forall_mem_map]
      intro block hb
      have := (blockFirstKey_length_le block).trans ((splitBlocks_spec hblocks).2 block hb).2
      rw [blockDataCapacity] at this
      omega
    have hcount : entries.length ≤ BloomFilter.byteCount entries.length * 8 := by
      have hbits : entries.length * 10 ≤ max (entries.length * BloomFilter.bitsPerKey) BloomFilter.minBitCount := le_max_left _ _
      rw [BloomFilter.byteCount]
      omega
    rw [length_map] at hsize
    have hblock : blockSize = 4096 := rfl
    have hfooter : footerSize = 32 := rfl
    rw [hblock] at hsize hindex
    refine ⟨?_,?_⟩
    · dsimp only
      rw [fileSize,length_map,hfooter,hblock]
      omega
    · dsimp only
      omega
  · cases hrest

theorem write_ne_empty (hne : entries ≠ []) : write id entries ≠ some none := by
  intro h
  obtain ⟨blocks,-,hrest⟩ := bind_eq_some_iff.mp h
  cases entries with
  | nil => exact hne rfl
  | cons e es =>
    rw [head?_cons,getLast?_cons] at hrest
    dsimp only at hrest
    split_ifs at hrest
    cases hrest

end SSTable
end InterchangeDb
