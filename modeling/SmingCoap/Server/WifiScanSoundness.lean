import SmingCoap.Server.DividedStore
import SmingCoap.Server.WifiScan

/-! # Scans in memory

`scan_done` asks for as many bytes as the text of the stations has, and writes a
NUL behind them.  Where the buffer is just as large that is the first byte of the
next header, which is zero behind every live buffer: so the text is written, and
nothing else.  A result that is there is a buffer of its own which no one else
has, and it goes to one response.
-/

namespace SmingCoap.Server.WifiScanRes

open Wire (Memory int16 int16_eq)
open Ownership (Buffer Store)
open Transition (Run)
open Bget

/-! ## Texts -/

section
variable {number count : Nat} {memory : Memory} {address : Nat} {text rest : List UInt8} {bss : BssInfo}
  {stations : List BssInfo}

theorem decimal_length_le (positive : 0 < count) (bound : number < 10 ^ count) : (decimal number).length ≤ count := by
  rw [decimal, List.length_map]
  exact (Nat.length_toDigits_le_iff (by decide) positive).mpr bound

/-- No digit is a NUL. -/
theorem decimal_filled : 0 ∉ decimal number := by
  intro member
  obtain ⟨char, digit, same⟩ := List.mem_map.mp member
  have isDigit := Nat.isDigit_of_mem_toDigits (by decide) (by decide) digit
  have value := congrArg UInt8.toNat same
  rw [UInt8.toNat_ofNat'] at value
  simp only [Char.isDigit, Bool.and_eq_true, decide_eq_true_eq] at isDigit
  have low : 48 ≤ char.toNat := isDigit.1
  have high : char.toNat ≤ 57 := isDigit.2
  change char.toNat % 256 = 0 at value
  omega

theorem decimalInt_length_le {number : Int8} : (decimalInt number.toInt).length ≤ 4 := by
  have low := number.le_toInt
  have high := number.toInt_lt
  rw [decimalInt]
  split
  next =>
    have digits : (decimal number.toInt.natAbs).length ≤ 3 := decimal_length_le (by decide) (by omega)
    rw [List.length_append]
    exact Nat.add_le_add_left digits 1
  next =>
    have digits : (decimal number.toInt.toNat).length ≤ 3 := decimal_length_le (by decide) (by omega)
    exact Nat.le_trans digits (by decide)

/-- The text of any station fits in `temp`. -/
theorem stationText_short (bss : BssInfo) : (stationText bss).length < tempSize := by
  have byte : ∀ value : UInt8, (decimal value.toNat).length ≤ 3 := fun value =>
    decimal_length_le (by decide) (Nat.lt_of_lt_of_le value.toNat_lt (by decide))
  have authmode := byte bss.authmode
  have channel := byte bss.channel
  have rssi : (decimalInt bss.rssi.toInt).length ≤ 4 := decimalInt_length_le
  have name := List.length_take_le 32 bss.ssid
  have mac : (macText bss.bssid).length = 17 := rfl
  simp only [stationText, List.length_append, mac, tempSize]
  have strings : (cString "(").length = 1 ∧ (cString ",\"").length = 2 ∧ (cString "\",").length = 2 ∧
      (cString ")\r\n").length = 3 := by decide
  omega

/-- The text of all stations. -/
def scanText (stations : List BssInfo) : List UInt8 := stations.flatMap stationText

theorem scanText_cons : scanText (bss :: stations) = stationText bss ++ scanText stations := List.flatMap_cons

theorem stationText_pos (bss : BssInfo) : 0 < (stationText bss).length := by
  simp only [stationText, List.length_append]
  have bracket : (cString "(").length = 1 := by decide
  omega

theorem scanText_pos (some : stations ≠ []) : 0 < (scanText stations).length := by
  cases stations with
  | nil => exact absurd rfl some
  | cons bss rest =>
    rw [scanText_cons, List.length_append]
    exact Nat.add_pos_left (stationText_pos bss) _

theorem dryRun_eq (stations : List BssInfo) : dryRun stations = some (scanText stations).length := by
  induction stations with
  | nil => rfl
  | cons bss rest inductionHypothesis =>
    rw [dryRun, if_pos (stationText_short bss), inductionHypothesis, scanText_cons, List.length_append]
    rfl

theorem notAvailable_filled : 0 ∉ notAvailable number := by
  intro member
  rcases List.mem_append.mp member with front | bracket
  · rcases List.mem_append.mp front with words | digits
    · exact absurd words (by decide)
    · exact decimal_filled digits
  · exact absurd bracket (by decide)

/-- Of a text that has a length of at most five digits the client is told with 16 characters at most. -/
theorem notAvailable_length_le (bound : number < 100000) : (notAvailable number).length ≤ 16 := by
  have digits : (decimal number).length ≤ 5 := decimal_length_le (by decide) bound
  simp only [notAvailable, List.length_append]
  have strings : (cString "blk2 n/a [").length = 10 ∧ (cString "]").length = 1 := by decide
  omega

/-! ## Writes -/

/-- What is copied over the end of a copy. -/
theorem copy_copy (some : rest ≠ []) : (memory.copy address (text ++ [0])).copy (address + text.length) rest =
    memory.copy address (text ++ rest) := by
  have length := List.length_pos_iff.mpr some
  funext i
  by_cases behind : address + text.length + rest.length ≤ i
  · rw [Memory.copy_outside _ (.inr behind), Memory.copy_outside _ (.inr _), Memory.copy_outside _ (.inr _)]
    · rw [List.length_append]
      omega
    · rw [List.length_append, List.length_singleton]
      omega
  · by_cases before : i < address
    · rw [Memory.copy_outside _ (.inl (by omega)), Memory.copy_outside _ (.inl before), Memory.copy_outside _ (.inl before)]
    · have whole := (Memory.copy_holds memory address (text ++ rest))
      have parts := Memory.holds_append.mp whole
      by_cases inside : i < address + text.length
      · rw [Memory.copy_outside _ (.inl inside)]
        have first := (Memory.holds_append.mp (Memory.copy_holds memory address (text ++ [0]))).1
        have same := parts.1.agree first (show i - address < text.length by omega)
        rwa [Nat.add_sub_cancel' (by omega)] at same
      · have last := Memory.copy_holds (memory.copy address (text ++ [0])) (address + text.length) rest
        have same := parts.2.agree last (show i - (address + text.length) < rest.length by omega)
        rwa [Nat.add_sub_cancel' (by omega)] at same

/-- A NUL that is written where there is one. -/
theorem copy_nul (zero : memory (address + text.length) = 0) :
    memory.copy address (text ++ [0]) = memory.copy address text := by
  funext i
  by_cases here : i = address + text.length
  · rw [here, Memory.copy_outside memory (.inr (Nat.le_refl _)), zero]
    have nul := (Memory.holds_append.mp (Memory.copy_holds memory address (text ++ [0]))).2
    exact nul.apply (i := 0) (by decide)
  · by_cases inside : address ≤ i ∧ i < address + text.length
    · have first := (Memory.holds_append.mp (Memory.copy_holds memory address (text ++ [0]))).1
      have same := (Memory.copy_holds memory address text).agree first (show i - address < text.length by omega)
      rwa [Nat.add_sub_cancel' inside.1] at same
    · have longer : i < address ∨ address + (text ++ [0]).length ≤ i := by
        rw [List.length_append, List.length_singleton]
        omega
      rw [Memory.copy_outside memory longer, Memory.copy_outside memory (by omega)]

/-- The lines are written one behind the other, the last one with a NUL. -/
theorem writeStations_eq (some : stations ≠ []) : writeStations memory (Option.some address) stations =
    Option.some (memory.copy address (scanText stations ++ [0])) := by
  induction stations generalizing memory address with
  | nil => exact absurd rfl some
  | cons bss rest inductionHypothesis =>
    rw [writeStations, sprintf, Option.map_some, Option.map_some, Option.bind_eq_bind, Option.bind_some, scanText_cons]
    cases rest with
    | nil => rw [writeStations, scanText, List.flatMap_nil, List.append_nil]
    | cons second rest =>
      rw [inductionHypothesis (List.cons_ne_nil _ _), copy_copy (List.append_ne_nil_of_right_ne_nil _ (List.cons_ne_nil _ _)),
        List.append_assoc]

/-- Without a buffer the first line is written through the null pointer. -/
theorem writeStations_none (some : stations ≠ []) : writeStations memory none stations = none := by
  cases stations with
  | nil => exact absurd rfl some
  | cons bss rest => rfl

theorem strlen_eq {fuel : Nat} (holds : memory.Holds address (text ++ [0])) (filled : 0 ∉ text)
    (enough : text.length < fuel) : strlen memory address fuel = some text.length := by
  induction text generalizing address fuel with
  | nil =>
    obtain ⟨fuel, rfl⟩ := Nat.exists_eq_succ_of_ne_zero (Nat.ne_of_gt enough)
    exact if_pos (Memory.holds_cons.mp holds).1
  | cons byte rest inductionHypothesis =>
    obtain ⟨fuel, rfl⟩ := Nat.exists_eq_succ_of_ne_zero (Nat.ne_of_gt (Nat.zero_lt_of_lt enough))
    rw [List.cons_append] at holds
    obtain ⟨here, behind⟩ := Memory.holds_cons.mp holds
    have notNul : ¬ memory address = 0 := fun nul => filled (List.mem_cons.mpr (.inl (nul.symm.trans here)))
    have later := inductionHypothesis behind (fun member => filled (List.mem_cons_of_mem _ member))
      (Nat.lt_of_succ_lt_succ enough)
    rw [strlen, if_neg notNul, later]
    rfl

end

/-! ## The buffer of a result -/

section
variable {site : Site} {allocator : Allocator} {store : Store} {blocks : List Block} {ring : List Nat} {memory : Memory}
  {fuel : Nat} {stations : List BssInfo}

/-- Behind a live buffer comes a header, which says that no free block is in front of it. -/
theorem nul_behind (pool : Pool site memory blocks ring) {buf capacity : Nat}
    (member : (buf, capacity) ∈ liveBuffers site.base blocks) : memory (buf + capacity) = 0 := by
  obtain ⟨address, size, placed, same⟩ := mem_liveBuffers.mp member
  cases same
  have room : 12 ≤ size := (pool.sound _ (Tiling.place_mem placed)).1
  obtain ⟨front, back, rfl, rfl⟩ := Tiling.mem_place_iff.mp placed
  obtain ⟨next, rest, rfl⟩ := pool.toRow.following Block.noConfusion
  have header := pool.headers.following
  have zero := Memory.loadInt16_eq_zero header.1
  have same : site.base + Tiling.total Block.size front + 4 + (size - 4) =
      site.base + Tiling.total Block.size front + size := by omega
  rwa [same]

/-- A request that gets a buffer found a free block that is large enough. -/
theorem granted_large (ready : Ready site allocator blocks ring) {size : Int} (positive : 0 < size) (short : size ≤ 32760)
    (enough : ring.length < fuel) {buf : Nat} {after : Allocator}
    (obtained : coapMemGet0 site.freelist fuel size allocator = some (some buf, after)) :
    ∃ free, Block.free free ∈ blocks ∧ needed size ≤ free := by
  rcases bget_spec ready positive short enough with ⟨_, refused⟩ |
    ⟨front, free, back, _, _, _, _, rfl, _, grant, _, _, _, _, _⟩
  · rw [coapMemGet0, bgetz, refused] at obtained
    cases obtained
  · exact ⟨free, List.mem_append_right _ List.mem_cons_self, grant.need_le⟩

/-- There is no station, or no room for the text. -/
def Fails (blocks : List Block) (stations : List BssInfo) : Prop :=
  stations = [] ∨ ∀ free, Block.free free ∈ blocks → free < needed (scanText stations).length

/-- The result of a scan is a buffer that begins with the text, and nothing else is written. -/
theorem scanDone_spec (divided : Divided site allocator store [] blocks ring) (enough : site.size < 12 * fuel)
    (first : BssInfo) (resource : ScanResource) (short : (scanText stations).length ≤ 32760) :
    (scanDone site.freelist fuel (first :: stations) .ok resource allocator = none ∧ Fails blocks stations) ∨
      ∃ buf capacity granted left after,
        coapMemGet0 site.freelist fuel (scanText stations).length allocator = some (some buf, after) ∧
        scanDone site.freelist fuel (first :: stations) .ok resource allocator =
          some (⟨.doneOk, (scanText stations).length, some buf⟩,
            { after with memory := after.memory.copy buf (scanText stations) }) ∧
        ¬ Fails blocks stations ∧ (scanText stations).length ≤ capacity ∧
        after.memory.bytes buf capacity = List.replicate capacity 0 ∧
        Divided site after store [(buf, capacity)] granted left := by
  have request : int16 ((scanText stations).length : Nat) = ((scanText stations).length : Nat) :=
    int16_eq (by omega) (by omega)
  have unfolded : scanDone site.freelist fuel (first :: stations) .ok resource allocator =
      (coapMemGet0 site.freelist fuel (scanText stations).length allocator).bind fun obtained =>
        (writeStations obtained.2.memory obtained.1 stations).bind fun memory =>
          some (⟨.doneOk, (scanText stations).length, obtained.1⟩, { obtained.2 with memory }) := by
    rw [scanDone, dryRun_eq, Option.bind_eq_bind, Option.bind_some, request]
    rfl
  by_cases none : stations = []
  · subst none
    exact .inl ⟨unfolded.trans rfl, .inl rfl⟩
  have positive : (0 : Int) < (scanText stations).length := Int.natCast_pos.mpr (scanText_pos none)
  have bound : ((scanText stations).length : Int) ≤ 32760 := Int.ofNat_le.mpr short
  have steps := (divided.ready.toPool.toRow.enough enough).1
  obtain ⟨obtains, cleared⟩ := coapMemGet0_obtains divided.ready positive bound steps
  rcases divided.obtains obtains with
    ⟨refused, small⟩ | ⟨buf, capacity, granted, left, after, result, large, dividedAfter, _, _⟩
  · refine .inl ⟨?_, .inr small⟩
    rw [unfolded, refused, Option.bind_some, writeStations_none none, Option.bind_none]
  · have listed := dividedAfter.owned.subset (List.mem_append_right _ List.mem_cons_self)
    have usable := dividedAfter.ready.toPool.bsize_eq listed
    have zeros := cleared buf after result
    rw [usable, Int.toNat_natCast] at zeros
    have room : (scanText stations).length ≤ capacity := Int.ofNat_le.mp large
    -- the NUL is one of the zeros, or the byte behind them
    have nul : after.memory (buf + (scanText stations).length) = 0 := by
      rcases Nat.lt_or_eq_of_le room with inside | same
      · have byte := Memory.getElem_bytes after.memory buf capacity _ (by rwa [Memory.length_bytes])
        rw [← byte, List.getElem_of_eq zeros, List.getElem_replicate]
      · rw [same]
        exact nul_behind dividedAfter.ready.toPool listed
    refine .inr ⟨buf, capacity, granted, left, after, result, ?_, ?_, room, zeros, dividedAfter⟩
    · rw [unfolded, result, Option.bind_some, writeStations_eq none, Option.bind_some, copy_nul nul]
    · rintro (empty | small)
      · exact none empty
      · obtain ⟨free, member, fits⟩ := granted_large divided.ready positive bound steps result
        exact absurd (small free member) (Nat.not_lt.mpr fits)

/-- Which callbacks fail, as `bstats` tells it. -/
theorem fails_iff {stats : Stats} (all : ∀ size, Block.free size ∈ blocks → size ≤ stats.maxfree)
    (found : stats.maxfree = -1 ∨ ∃ size, Block.free size ∈ blocks ∧ stats.maxfree = size) :
    Fails blocks stations ↔ stations = [] ∨ stats.maxfree < needed (scanText stations).length := by
  refine or_congr_right ⟨fun small => ?_, fun less free member => ?_⟩
  · rcases found with none | ⟨size, member, most⟩
    · omega
    · have bound := small size member
      omega
  · have bound := all free member
    omega

end

/-! ## The callback in any state of the allocator -/

section
variable {site : Site} {len : Int} {fuel : Nat} {initial : Allocator} {tracked : Tracked} {stations : List BssInfo}

/-- A store in front of a copy. -/
theorem store_copy (memory : Memory) (address : Nat) (byte : UInt8) (rest : List UInt8) :
    (memory.store address byte).copy (address + 1) rest = memory.copy address (byte :: rest) := by
  funext i
  have whole := Memory.holds_cons.mp (Memory.copy_holds memory address (byte :: rest))
  by_cases here : i = address
  · rw [here, whole.1, Memory.copy_outside _ (.inl (Nat.lt_succ_self _)), Memory.store_same]
  · by_cases inside : address + 1 ≤ i ∧ i < address + 1 + rest.length
    · have copied := Memory.copy_holds (memory.store address byte) (address + 1) rest
      have same := whole.2.agree copied (show i - (address + 1) < rest.length by omega)
      rwa [Nat.add_sub_cancel' inside.1] at same
    · rw [Memory.copy_outside _ (by omega), Memory.store_other _ _ here,
        Memory.copy_outside memory (by rw [List.length_cons]; omega)]

/-- A text is written to the newest buffer. -/
theorem Reached.writes {allocator : Allocator} {store : Store} {buf : Nat} {front old : List UInt8} (text : List UInt8)
    (reached : Reached site len fuel initial ⟨allocator, ⟨buf, front ++ old⟩ :: store⟩)
    (different : ∀ buffer ∈ store, buffer.address ≠ buf) (room : text.length ≤ old.length) :
    Reached site len fuel initial ⟨{ allocator with memory := allocator.memory.copy (buf + front.length) text },
      ⟨buf, front ++ text ++ old.drop text.length⟩ :: store⟩ := by
  induction text generalizing allocator front old with
  | nil =>
    have same : allocator.memory.copy (buf + front.length) [] = allocator.memory :=
      funext fun i => Memory.copy_outside _ (by rw [List.length_nil]; omega)
    rw [same, List.append_nil, List.length_nil, List.drop_zero]
    exact reached
  | cons byte rest inductionHypothesis =>
    cases old with
    | nil => exact absurd room (Nat.not_succ_le_zero _)
    | cons replaced old =>
      obtain ⟨began, initialised, run⟩ := reached
      have legal : Legal ⟨allocator, ⟨buf, front ++ replaced :: old⟩ :: store⟩ (.write buf front.length byte) := by
        refine ⟨_, List.mem_cons_self, rfl, ?_⟩
        simp only [List.length_append, List.length_cons]
        omega
      have written : Store.write (⟨buf, front ++ replaced :: old⟩ :: store) buf front.length byte =
          ⟨buf, front ++ [byte] ++ old⟩ :: store := by
        have others : Store.write store buf front.length byte = store := write_of_ne different
        rw [Store.write] at others ⊢
        rw [List.map_cons, others, if_pos rfl, Buffer.write, List.set_append_right _ _ (Nat.le_refl _), Nat.sub_self]
        simp
      have next := run.next _ legal rfl
      rw [written] at next
      have copied := inductionHypothesis ⟨began, initialised, next⟩ (Nat.le_of_succ_le_succ room)
      simp only [List.length_append, List.length_singleton] at copied
      rw [← Nat.add_assoc, store_copy] at copied
      simpa using copied

/-- Though `scan_done` writes one byte more than it asked for, in every state of the allocator it does no more than to
write the text to a buffer of its own, which is the end of a run of legal calls; and it comes through if and only if
there is a station and a free block that is large enough. -/
theorem reached_scanDone (fresh : Fresh site.freelist initial) (area : Area site len) (enough : site.size < 12 * fuel)
    (reached : Reached site len fuel initial tracked) (first : BssInfo) (resource : ScanResource)
    (short : (scanText stations).length ≤ 32760) :
    ∃ stats, bstats site.freelist fuel tracked.allocator = some stats ∧
      (scanDone site.freelist fuel (first :: stations) .ok resource tracked.allocator = none ↔
        stations = [] ∨ stats.maxfree < needed (scanText stations).length) ∧
      ∀ result after, scanDone site.freelist fuel (first :: stations) .ok resource tracked.allocator = some (result, after) →
        ∃ buf rest, result = ⟨.doneOk, (scanText stations).length, some buf⟩ ∧
          Reached site len fuel initial ⟨after, ⟨buf, scanText stations ++ List.replicate rest 0⟩ :: tracked.store⟩ := by
  obtain ⟨blocks, ring, sound⟩ := reached.steady fresh area enough
  have steps := (sound.ready.toPool.toRow.enough enough).1
  obtain ⟨stats, reported, _, _, _, _, largest, found⟩ := bstats_spec sound.ready steps
  refine ⟨stats, reported, ?_⟩
  rw [← fails_iff largest found]
  rcases scanDone_spec sound.undivided enough first resource short with
    ⟨refused, fails⟩ | ⟨buf, capacity, _, _, after, result, taken, goes, room, zeros, divided⟩
  · refine ⟨iff_of_true refused fails, fun result after taken => ?_⟩
    rw [refused] at taken
    cases taken
  · refine ⟨iff_of_false (by rw [taken]; exact Option.some_ne_none _) goes, fun other final same => ?_⟩
    rw [taken] at same
    cases same
    have none : stations ≠ [] := fun empty => goes (.inl empty)
    have legal : Legal tracked (.get0 (scanText stations).length) :=
      ⟨Int.natCast_pos.mpr (scanText_pos none), Int.ofNat_le.mpr short⟩
    have usable := divided.ready.toPool.bsize_eq (divided.owned.subset (List.mem_append_right _ List.mem_cons_self))
    have obtained : tracked.step site.freelist fuel (.get0 (scanText stations).length) =
        some ⟨after, ⟨buf, [] ++ List.replicate capacity 0⟩ :: tracked.store⟩ := by
      rw [Tracked.step, result, Option.map_some, Tracked.granted, usable, Int.toNat_natCast, zeros]
      rfl
    obtain ⟨began, initialised, run⟩ := reached
    have different : ∀ buffer ∈ tracked.store, buffer.address ≠ buf :=
      fun buffer member => divided.address_ne member List.mem_cons_self
    have written := Reached.writes (scanText stations) ⟨began, initialised, run.next _ legal obtained⟩ different
      (by rwa [List.length_replicate])
    rw [List.drop_replicate] at written
    exact ⟨buf, _, rfl, written⟩

/-- A network in range. -/
def homeNetwork : BssInfo where
  authmode := 3
  ssid := cString "home"
  rssi := -70
  bssid := fun _ => 0xAB
  channel := 6

theorem reached_scanDone_workMemory : ∃ (tracked : Tracked) (stats : Stats), tracked.store ≠ [] ∧
    bstats 4096 400 tracked.allocator = some stats ∧
    (scanDone 4096 400 [homeNetwork, homeNetwork] .ok ⟨.running, 0, none⟩ tracked.allocator = none ↔
      [homeNetwork] = [] ∨ stats.maxfree < 44) := by
  obtain ⟨tracked, buffer, reached, store⟩ := exists_reached
  have short : (scanText [homeNetwork]).length ≤ 32760 := by decide
  have size : needed (scanText [homeNetwork]).length = 44 := by decide
  obtain ⟨stats, reported, fails, _⟩ := reached_scanDone unused_fresh workMemory_area (by decide) reached homeNetwork
    ⟨.running, 0, none⟩ short
  rw [size] at fails
  exact ⟨tracked, stats, by rw [store]; exact List.cons_ne_nil _ _, reported, fails⟩

end

end SmingCoap.Server.WifiScanRes
