import SmingCoap.Server.Handlers
import SmingCoap.Transition.Runs

/-! # The size of the link format

`WellKnown_GetHandler` allocates 64 bytes for each resource and 64 more, its
"first estimation of needed memory", and writes the link format into them
without a check.  How much it writes depends on the lengths of URIs and
descriptions, which nothing bounds: the text fits if and only if their sum does
(`wellKnown_fits_iff`).
-/

namespace SmingCoap.Server

open Transition (Run)
open Wire (Opt)

/-! ## Registration -/

/-- A call of `CoAP_CreateResource`, with the memory that it gets. -/
structure CreateCall where
  resourceMem : Bool
  descrMem : Bool
  optionMem : Nat → Bool
  registration : Registration

def CreateCall.step (this : ResourceList) (call : CreateCall) : Option ResourceList :=
  createResource call.resourceMem call.descrMem call.optionMem this call.registration

/-- The list after some registrations. -/
def Registers : ResourceList → Prop := Run CreateCall.step (fun _ _ => True) ⟨[], 0⟩

/-- The counter counts the resources, as far as 32 bits go. -/
theorem Registers.members {this : ResourceList} (registers : Registers this) :
    this.resListMembers = UInt32.ofNat this.pResList.length := by
  refine @Run.invariant _ _ _ _ _ _ (fun this => this.resListMembers = UInt32.ofNat this.pResList.length) rfl ?_ registers
  intro before call after counted _ taken
  simp only [CreateCall.step, createResource] at taken
  split at taken
  next =>
    cases taken
    exact counted
  next =>
    split at taken
    next => cases taken
    next =>
      cases taken
      simp [counted]

/-! ## Lengths -/

/-- The characters of the segments of a URI, with a slash behind each. -/
def segmentsLength (pUri : List Opt) : Nat := (pUri.map fun pUriOpt => pUriOpt.value.length + 1).sum

/-- The digits of a number of 16 bits. -/
def digits (number : Nat) : Nat :=
  if number < 10 then 1
  else if number < 100 then 2
  else if number < 1000 then 3
  else if number < 10000 then 4
  else 5

/-- The characters for one resource, of which 9 and 5 frame the description. -/
def linkLength (nullText : List UInt8) (pList : ListedResource) : Nat :=
  1 + segmentsLength pList.uri +
    if pList.cf = coapCfLinkFormat then 2
    else 9 + (pList.pDescription.getD nullText).length + 5 + digits pList.cf.toNat + if pList.notifier then 5 else 1

/-- The characters for all resources. -/
def linksLength (nullText : List UInt8) (pResList : List ListedResource) : Nat :=
  (pResList.map (linkLength nullText)).sum

theorem decimal_length {number : Nat} (bound : number < 65536) : (decimal number).length = digits number := by
  have few := fun k => @Nat.length_toDigits_le_iff 10 number k (by decide)
  have one := few 1 (by decide)
  have two := few 2 (by decide)
  have three := few 3 (by decide)
  have four := few 4 (by decide)
  have five := few 5 (by decide)
  have some := @Nat.length_toDigits_pos 10 number
  simp only [decimal, List.length_map, digits]
  split
  next => omega
  next =>
    split
    next => omega
    next =>
      split
      next => omega
      next => split <;> omega

/-! ## What is written -/

/-- Everything that has been written is text, with one NUL behind it. -/
def LinkWriter.Tight (this : LinkWriter) : Prop := this.extent ≤ this.text.length + 1

theorem LinkWriter.Tight.put {this : LinkWriter} (tight : this.Tight) (bytes : List UInt8) :
    (this.put bytes).Tight := by
  simp only [Tight, LinkWriter.put, List.length_append] at tight ⊢
  omega

/-- What is printed ends in a NUL. -/
theorem LinkWriter.Tight.sprintf {this : LinkWriter} (tight : this.Tight) (bytes : List UInt8) :
    (this.sprintf bytes).text.length = this.text.length + bytes.length ∧
      (this.sprintf bytes).extent = (this.sprintf bytes).text.length + 1 := by
  simp only [Tight, LinkWriter.sprintf, List.length_append, true_and] at tight ⊢
  omega

theorem LinkWriter.putUri_spec {this : LinkWriter} (tight : this.Tight) (pUri : List Opt) :
    (this.putUri pUri).text.length = this.text.length + segmentsLength pUri ∧ (this.putUri pUri).Tight := by
  induction pUri generalizing this with
  | nil => exact ⟨rfl, tight⟩
  | cons pUriOpt rest inductionHypothesis =>
    obtain ⟨length, kept⟩ := inductionHypothesis ((tight.put pUriOpt.value).put (cString "/"))
    refine ⟨length.trans ?_, kept⟩
    have slash : (cString "/").length = 1 := by decide
    simp only [LinkWriter.put, List.length_append, slash, segmentsLength, List.map_cons, List.sum_cons]
    omega

/-- One resource takes its characters, and the NUL behind them is written as well. -/
theorem LinkWriter.putResource_spec {this : LinkWriter} (nullText : List UInt8) (tight : this.Tight)
    (pList : ListedResource) :
    (this.putResource nullText pList).text.length = this.text.length + linkLength nullText pList ∧
      (this.putResource nullText pList).extent = (this.putResource nullText pList).text.length + 1 := by
  obtain ⟨length, opened⟩ := LinkWriter.putUri_spec (tight.put (cString "<")) pList.uri
  have literals : (cString "<").length = 1 ∧ (cString ">,").length = 2 ∧ (cString ">;title=\"").length = 9 ∧
      (cString "\";cf=").length = 5 ∧ (cString ";obs,").length = 5 ∧ (cString ",").length = 1 := by decide
  obtain ⟨open_, link, title, cf, obs, comma⟩ := literals
  have number := decimal_length pList.cf.toNat_lt
  have opening : (this.put (cString "<")).text.length = this.text.length + 1 := by
    simp [LinkWriter.put, open_]
  rw [opening] at length
  simp only [LinkWriter.putResource, linkLength]
  -- each literal is as long as `linkLength` counts it
  generalize (this.put (cString "<")).putUri pList.uri = written at length opened
  split
  next =>
    obtain ⟨printed, ends⟩ := opened.sprintf (cString ">,")
    rw [link] at printed
    exact ⟨by omega, ends⟩
  next =>
    obtain ⟨printed, ends⟩ := opened.sprintf (cString ">;title=\"" ++ pList.pDescription.getD nullText ++
      cString "\";cf=" ++ decimal pList.cf.toNat)
    have described := Nat.le_of_eq ends
    simp only [List.length_append, title, cf, number] at printed
    generalize written.sprintf (cString ">;title=\"" ++ pList.pDescription.getD nullText ++ cString "\";cf=" ++
      decimal pList.cf.toNat) = titled at printed described ⊢
    split
    next =>
      obtain ⟨last, ends⟩ := LinkWriter.Tight.sprintf described (cString ";obs,")
      rw [obs] at last
      exact ⟨by omega, ends⟩
    next =>
      obtain ⟨last, ends⟩ := LinkWriter.Tight.sprintf described (cString ",")
      rw [comma] at last
      exact ⟨by omega, ends⟩

theorem wellKnownText_spec (nullText : List UInt8) (pResList : List ListedResource) :
    (wellKnownText nullText pResList).text.length = linksLength nullText pResList ∧
      (wellKnownText nullText pResList).Tight := by
  have run : ∀ this : LinkWriter, this.Tight →
      (pResList.foldl (LinkWriter.putResource nullText) this).text.length =
          this.text.length + linksLength nullText pResList ∧
        (pResList.foldl (LinkWriter.putResource nullText) this).Tight := by
    induction pResList with
    | nil => exact fun this tight => ⟨rfl, tight⟩
    | cons pList rest inductionHypothesis =>
      intro this tight
      obtain ⟨length, ends⟩ := LinkWriter.putResource_spec nullText tight pList
      obtain ⟨total, kept⟩ := inductionHypothesis (this.putResource nullText pList) (Nat.le_of_eq ends)
      refine ⟨total.trans ?_, kept⟩
      simp only [length, linksLength, List.map_cons, List.sum_cons]
      omega
  obtain ⟨length, kept⟩ := run ⟨[], 0⟩ (Nat.zero_le _)
  exact ⟨length.trans (Nat.zero_add _), kept⟩

/-! ## The estimation -/

/-- All that is written, and the NUL of the string, lie within the memory for it. -/
structure Fits (nullText : List UInt8) (this : ResourceList) : Prop where
  written : (wellKnownText nullText this.pResList).extent ≤ wellKnownBytes this
  string : (wellKnownText nullText this.pResList).text.length + 1 ≤ wellKnownBytes this

/-- 64 bytes for each resource and 64 more, in numbers of 32 and then of 16 bits. -/
def estimation (resources : Nat) : Nat := requestedBytes ((resources + 1) * 64 % 2 ^ 32)

theorem wellKnownBytes_eq {this : ResourceList} (registers : Registers this) :
    wellKnownBytes this = estimation this.pResList.length := by
  simp only [wellKnownBytes, estimation, registers.members]
  congr 1
  simp

/-- The link format fits into the memory that is allocated for it, if and only if its length is below the
estimation. -/
theorem wellKnown_fits_iff (nullText : List UInt8) (this : ResourceList) (registers : Registers this) :
    Fits nullText this ↔ linksLength nullText this.pResList < estimation this.pResList.length := by
  obtain ⟨length, tight⟩ := wellKnownText_spec nullText this.pResList
  simp only [LinkWriter.Tight] at tight
  rw [← wellKnownBytes_eq registers]
  constructor
  · rintro ⟨_, string⟩
    omega
  · intro below
    exact ⟨by omega, by omega⟩

/-- `/a` with a description of some length. -/
def described (length : Nat) : CreateCall where
  resourceMem := true
  descrMem := true
  optionMem := fun _ => true
  registration :=
    { uri := cString "a", descr := List.replicate length 0x61, cf := 0, flags := 2, handler := true, notifier := false }

/-- The list with this resource alone. -/
def describedList (length : Nat) : ResourceList where
  pResList := [{
    updateCnt := 0, flags := 2, uri := [⟨optNumUriPath, cString "a"⟩], observers := [], handler := true
    notifier := false, pDescription := some (List.replicate length 0x61), cf := 0 }]
  resListMembers := 1

theorem described_registers {length : Nat} (positive : 0 < length) : Registers (describedList length) := by
  have nonempty : length ≠ 0 := by omega
  have path : (appendUriOptionsFromString (fun _ => true) ⟨[], 0⟩ (cString "a")).options =
      [⟨optNumUriPath, cString "a"⟩] := by decide
  refine .next .refl (described length) trivial ?_
  simp [CreateCall.step, described, createResource, describedList, nonempty, path]

theorem wellKnown_fits_short : Fits [] (describedList 40) :=
  (wellKnown_fits_iff [] (describedList 40) (described_registers (by decide))).mpr (by decide +kernel)

/-- 219 characters and 128 bytes. -/
theorem wellKnown_fits_long : ¬ ∀ (nullText : List UInt8) (this : ResourceList), Registers this → Fits nullText this := by
  intro fits
  have string := (fits [] (describedList 200) (described_registers (by decide))).string
  rw [(wellKnownText_spec [] (describedList 200).pResList).1] at string
  exact absurd string (by decide +kernel)

end SmingCoap.Server
