import Monoblok.Bytes
import Monoblok.Lib.Alignment
import Monoblok.Lib.CheckedSize

/-!
# Arenas

`pb_arena.c` over blocks with an address. The newest block is the first one. A
size or an address that would wrap leaves a call without a result. A pointer is
returned together with its block, which the code does not return, so that the
invariants can name it.
-/

namespace Monoblok.Memory

open CheckedSize Monoblok.Alignment

structure ArenaBlock where
  addr : ℕ
  used : ℕ
  cap : ℕ
  deriving DecidableEq, Repr

/-- `sizeof (pb_arena_block)` on the 64-bit targets. -/
def blockHeader : ℕ := 24

/-- `sizeof (void *)`. -/
def wordSize : ℕ := 8

/-- The address of `data`. -/
def ArenaBlock.data (b : ArenaBlock) : ℕ := b.addr + blockHeader

/-- The address behind the block. -/
def ArenaBlock.limit (b : ArenaBlock) : ℕ := b.data + b.cap

/-- `align_ptr_offset`, which fails rather than wrap. -/
def alignPtrOffset (base used align : ℕ) : Option (Option ℕ) :=
  if !isPowerOfTwo align then some none
  else
    (sub sizeMax base).bind fun above =>
      if above < used then some none
      else
        (add sizeMax base used).bind fun addr =>
          (sub align 1).bind fun mask =>
            (sub sizeMax mask).bind fun last =>
              if last < addr then some none
              else
                (add sizeMax addr mask).bind fun bumped =>
                  let aligned := bumped &&& complement 64 mask
                  if aligned < base then some none
                  else (sub aligned base).map fun delta => if sizeMax < delta then none else some delta

inductive Fit (α : Type) where
  | refused
  | tooSmall
  | placed (result : α)

/-- Takes `size` bytes off a block, if they fit behind what is used: the block
afterwards and the address. -/
def fitBlock (b : ArenaBlock) (size align : ℕ) : Option (Fit (ArenaBlock × ℕ)) :=
  (add sizeMax b.addr blockHeader).bind fun data =>
    (alignPtrOffset data b.used align).bind fun
      | none => some .refused
      | some off =>
        if b.cap < off then some .tooSmall
        else
          (sub b.cap off).bind fun room =>
            if room < size then some .tooSmall
            else
              (add sizeMax off size).bind fun used =>
                (add sizeMax data off).map fun ptr => .placed ({ b with used := used }, ptr)

/-- The first block with room; the search ends at a block whose offset cannot be
aligned. -/
def fitFirst (size align : ℕ) :
    List ArenaBlock → Option (Fit (List ArenaBlock × ArenaBlock × ℕ))
  | [] => some .tooSmall
  | b :: bs =>
    (fitBlock b size align).bind fun
      | .refused => some .refused
      | .placed (b', ptr) => some (.placed (b' :: bs, b', ptr))
      | .tooSmall =>
        (fitFirst size align bs).map fun
          | .placed (bs', b', ptr) => .placed (b :: bs', b', ptr)
          | .refused => .refused
          | .tooSmall => .tooSmall

/-- A new block in front, which is given back when the bytes do not fit after
all. -/
def arenaGrow (malloc : ℕ → Option ℕ) (arena : List ArenaBlock) (size align : ℕ) :
    Option (List ArenaBlock × Option (ArenaBlock × ℕ)) :=
  (sub sizeMax align).bind fun most =>
    if most < size then some (arena, none)
    else
      (add sizeMax size align).bind fun minCap =>
        (double sizeMax minCap 65 4096).bind fun cap =>
          (sub sizeMax blockHeader).bind fun largest =>
            if largest < cap then some (arena, none)
            else
              (add sizeMax blockHeader cap).bind fun bytes =>
                match malloc bytes with
                | none => some (arena, none)
                | some addr =>
                  (fitBlock ⟨addr, 0, cap⟩ size align).map fun
                    | .placed (b, ptr) => (b :: arena, some (b, ptr))
                    | _ => (arena, none)

/-- The alignment of a request; none given is that of a pointer. -/
def requestedAlign (align : ℕ) : ℕ := if align = 0 then wordSize else align

def pbArenaAlloc (malloc : ℕ → Option ℕ) (arena : List ArenaBlock) (size align : ℕ) :
    Option (List ArenaBlock × Option (ArenaBlock × ℕ)) :=
  let align := requestedAlign align
  if !isPowerOfTwo align then some (arena, none)
  else
    (fitFirst size align arena).bind fun
      | .refused => some (arena, none)
      | .placed (blocks, b, ptr) => some (blocks, some (b, ptr))
      | .tooSmall => arenaGrow malloc arena size align

def pbArenaReset (arena : List ArenaBlock) : List ArenaBlock :=
  arena.map fun b => { b with used := 0 }

/-- The loop of `pb_arena_trim` with what it has retained so far. -/
def trimFrom (keepCap : ℕ) : ℕ → List ArenaBlock → Option (List ArenaBlock)
  | _, [] => some []
  | retained, b :: bs =>
    (if keepCap ≤ retained then some true
      else (sub keepCap retained).map fun left => decide (left < b.cap)).bind fun overBudget =>
      if b.used = 0 ∧ overBudget then trimFrom keepCap retained bs
      else
        (sub sizeMax b.cap).bind fun most =>
          (if most < retained then some sizeMax else add sizeMax retained b.cap).bind fun retained =>
            (trimFrom keepCap retained bs).map (b :: ·)

def pbArenaTrim (arena : List ArenaBlock) (keepCap : ℕ) : Option (List ArenaBlock) :=
  trimFrom keepCap 0 arena

def scratchRetainBytes : ℕ := 4 * 1024 * 1024

/-- `reset_scratch`. -/
def resetScratch (scratch : List ArenaBlock) : Option (List ArenaBlock) :=
  pbArenaTrim (pbArenaReset scratch) scratchRetainBytes

/-! ## Single calls -/

theorem alignPtrOffset_spec {base used align : ℕ} (hend : base + used ≤ sizeMax)
    (halign : align ≤ sizeMax) :
    ∃ r, alignPtrOffset base used align = some r ∧ ∀ off, r = some off →
      used ≤ off ∧ align ∣ base + off ∧ base + off ≤ sizeMax := by
  have hbase : base ≤ sizeMax := by omega
  have hword : sizeMax + 1 = 2 ^ 64 := by simp [sizeMax]
  unfold alignPtrOffset
  by_cases hpow : isPowerOfTwo align = true
  · obtain ⟨k, rfl⟩ := exists_pow_of_isPowerOfTwo hpow
    have hpos := Nat.two_pow_pos k
    have hk : k ≤ 64 := by
      by_contra hlt
      have hlarge : 2 ^ 64 ≤ 2 ^ k := Nat.pow_le_pow_right (by simp) (by omega)
      omega
    have habove : ¬sizeMax - base < used := by omega
    have hmask : 2 ^ k - 1 ≤ sizeMax := by omega
    simp only [hpow, Bool.not_true, Bool.false_eq_true, if_false, sub_of_le hbase, Option.bind_some,
      habove, add_of_le hend, sub_of_le hpos, sub_of_le hmask]
    by_cases hlast : sizeMax - (2 ^ k - 1) < base + used
    · exact ⟨none, by simp [hlast], by simp⟩
    · have hbumped : base + used + (2 ^ k - 1) ≤ sizeMax := by omega
      obtain ⟨hdvd, hge, hle⟩ := round_up hk (x := base + used) (by omega)
      simp only [hlast, if_false, add_of_le hbumped, Option.bind_some]
      generalize (base + used + (2 ^ k - 1)) &&& complement 64 (2 ^ k - 1) = aligned at hdvd hge hle ⊢
      have hnotbelow : ¬aligned < base := by omega
      have hbelow : base ≤ aligned := by omega
      have hsmall : ¬sizeMax < aligned - base := by omega
      refine ⟨some (aligned - base), by simp [hnotbelow, hsmall, sub_of_le hbelow], ?_⟩
      intro off hoff
      cases hoff
      refine ⟨by omega, ?_, by omega⟩
      rwa [Nat.add_sub_cancel' hbelow]
  · exact ⟨none, by simp [hpow], by simp⟩

/-- A block within the address space that is not used beyond its capacity. -/
structure ArenaBlock.Ok (b : ArenaBlock) : Prop where
  used : b.used ≤ b.cap
  limit : b.limit ≤ sizeMax

/-- `size` bytes at `ptr` were taken off `b`, behind what was used of it. -/
structure TakenFrom (b b' : ArenaBlock) (ptr size align : ℕ) : Prop where
  addr : b'.addr = b.addr
  cap : b'.cap = b.cap
  behind : b.data + b.used ≤ ptr
  used : ptr + size = b'.data + b'.used
  within : b'.used ≤ b'.cap
  aligned : align ∣ ptr

theorem fitBlock_spec {b : ArenaBlock} (h : b.Ok) (size : ℕ) {align : ℕ} (halign : align ≤ sizeMax) :
    ∃ r, fitBlock b size align = some r ∧
      ∀ b' ptr, r = .placed (b', ptr) → TakenFrom b b' ptr size align := by
  have hused := h.used
  have hlimit := h.limit
  have hlimit' : b.addr + blockHeader + b.cap ≤ sizeMax := hlimit
  have hdata : b.addr + blockHeader ≤ sizeMax := by omega
  have hend : b.addr + blockHeader + b.used ≤ sizeMax := by omega
  obtain ⟨r, hr, hspec⟩ := alignPtrOffset_spec hend halign
  unfold fitBlock
  simp only [add_of_le hdata, Option.bind_some, hr]
  cases r with
  | none => exact ⟨.refused, rfl, by simp⟩
  | some off =>
    obtain ⟨hoff, hdvd, hmax⟩ := hspec off rfl
    by_cases hcap : b.cap < off
    · exact ⟨.tooSmall, by simp [hcap], by simp⟩
    · have hle : off ≤ b.cap := by omega
      by_cases hroom : b.cap - off < size
      · exact ⟨.tooSmall, by simp [hcap, hroom, sub_of_le hle], by simp⟩
      · have hsum : off + size ≤ sizeMax := by omega
        refine ⟨.placed ({ b with used := off + size }, b.addr + blockHeader + off), ?_, ?_⟩
        · simp [hcap, hroom, sub_of_le hle, add_of_le hsum, add_of_le hmax]
        · intro b' ptr heq
          cases heq
          constructor
          · rfl
          · rfl
          · exact Nat.add_le_add_left hoff _
          · simp only [ArenaBlock.data]
            omega
          · dsimp only
            omega
          · exact hdvd

theorem fitFirst_spec {arena : List ArenaBlock} (h : ∀ b ∈ arena, b.Ok) (size : ℕ) {align : ℕ}
    (halign : align ≤ sizeMax) :
    ∃ r, fitFirst size align arena = some r ∧
      ∀ blocks b' ptr, r = .placed (blocks, b', ptr) →
        ∃ l₁ b l₂, arena = l₁ ++ b :: l₂ ∧ blocks = l₁ ++ b' :: l₂ ∧
          TakenFrom b b' ptr size align := by
  induction arena with
  | nil => exact ⟨.tooSmall, rfl, by simp⟩
  | cons b bs ih =>
    obtain ⟨hb, hbs⟩ := List.forall_mem_cons.mp h
    obtain ⟨r, hr, hspec⟩ := fitBlock_spec hb size halign
    obtain ⟨rest, hrest, hspec'⟩ := ih hbs
    unfold fitFirst
    simp only [hr, Option.bind_some]
    cases r with
    | refused => exact ⟨.refused, rfl, by simp⟩
    | placed result =>
      obtain ⟨b', ptr⟩ := result
      refine ⟨.placed (b' :: bs, b', ptr), rfl, ?_⟩
      intro blocks c p heq
      cases heq
      exact ⟨[], b, bs, rfl, rfl, hspec _ _ rfl⟩
    | tooSmall =>
      simp only [hrest, Option.map_some]
      cases rest with
      | refused => exact ⟨.refused, rfl, by simp⟩
      | tooSmall => exact ⟨.tooSmall, rfl, by simp⟩
      | placed result =>
        obtain ⟨bs', b', ptr⟩ := result
        refine ⟨.placed (b :: bs', b', ptr), rfl, ?_⟩
        intro blocks c p heq
        cases heq
        obtain ⟨l₁, b₀, l₂, rfl, rfl, htaken⟩ := hspec' _ _ _ rfl
        exact ⟨b :: l₁, b₀, l₂, rfl, rfl, htaken⟩

end Monoblok.Memory
