/-
When chunks on DAX devices keep out of each other's way.

If every alignment divides the size of a chunk, the file opened for a chunk is as long as the
chunk, so mapping it touches no other.  Otherwise it is longer, and the rest lands on the
chunks behind: harmless if those are mapped later, but not if one of them is there already.
-/
import Cxlalloc.Dax
import Cxlalloc.Proofs.Region

namespace Cxlalloc

open Relation
open Function

/-! ### Opening a file -/

theorem map_set_eq {α β : Type} {f : α → β} {l : List α} {i : ℕ} {x y : α} (hx : l[i]? = some x)
    (hy : f y = f x) : (l.set i y).map f = l.map f := by
  refine List.ext_getElem? fun j => ?_
  rw [List.getElem?_map, List.getElem?_map, List.getElem?_set]
  by_cases hij : i = j
  · subst hij
    rw [if_pos rfl, if_pos (List.getElem?_eq_some_iff.mp hx).1, hx, Option.map_some, Option.map_some,
      hy]
  · rw [if_neg hij]

variable {size : ℕ} {file : File}

/-- A file on a device that is aligned to the size is as long as asked for. -/
theorem Dax.openFile_ok {d d' : Dax} (hpos : 0 < size)
    (hdvd : ∀ a ∈ d.devices.map Device.align, a ∣ size) (hopen : d.openFile size = .ok (file, d')) :
    file.size = size ∧ d'.devices.map Device.align = d.devices.map Device.align := by
  rw [Dax.openFile] at hopen
  dsimp only at hopen
  split at hopen
  · cases hopen
  · rename_i device hdevice
    split_ifs at hopen
    obtain ⟨rfl, rfl⟩ := ok_inj hopen
    have hmem : device.align ∈ d.devices.map Device.align :=
      List.mem_map_of_mem (List.mem_of_getElem? hdevice)
    have halign := hdvd _ hmem
    exact ⟨nextMultipleOf_of_dvd (Nat.pos_of_dvd_of_pos halign hpos) halign, map_set_eq hdevice rfl⟩

theorem DaxMmap.openFile_ok {d d' : DaxMmap} (hpos : 0 < size) (hpage : sizePage ∣ size)
    (halign : d.align ∣ size) (hdvd : ∀ a ∈ d.dax.devices.map Device.align, a ∣ size)
    (hopen : d.openFile size = .ok (file, d')) :
    file.size = size ∧ d'.align = d.align ∧
      d'.dax.devices.map Device.align = d.dax.devices.map Device.align := by
  rw [DaxMmap.openFile] at hopen
  split_ifs at hopen
  · split at hopen
    · cases hopen
    · rename_i hdax
      obtain ⟨rfl, rfl⟩ := ok_inj hopen
      obtain ⟨hsize, hdevices⟩ := Dax.openFile_ok hpos hdvd hdax
      exact ⟨hsize, rfl, hdevices⟩
  · obtain ⟨rfl, rfl⟩ := ok_inj hopen
    refine ⟨?_, rfl, rfl⟩
    show nextMultipleOf (nextMultipleOf size d.align) sizePage = size
    rw [nextMultipleOf_of_dvd (Nat.pos_of_dvd_of_pos halign hpos) halign,
      nextMultipleOf_of_dvd (by decide) hpage]

theorem Backend.openFile_ok {b b' : Backend} (hpos : 0 < size) (hpage : sizePage ∣ size)
    (hdvd : ∀ a ∈ b.aligns, a ∣ size) (hopen : b.openFile size = .ok (file, b')) :
    file.size = size ∧ b'.aligns = b.aligns := by
  cases b with
  | dax d =>
    rw [Backend.openFile] at hopen
    cases hd : d.openFile size with
    | error e =>
      rw [hd] at hopen
      cases hopen
    | ok r =>
      rw [hd] at hopen
      obtain ⟨rfl, rfl⟩ := ok_inj hopen
      exact Dax.openFile_ok hpos hdvd hd
  | daxMmap d =>
    rw [Backend.openFile] at hopen
    cases hd : d.openFile size with
    | error e =>
      rw [hd] at hopen
      cases hopen
    | ok r =>
      rw [hd] at hopen
      obtain ⟨rfl, rfl⟩ := ok_inj hopen
      obtain ⟨hsize, halign, hdevices⟩ := DaxMmap.openFile_ok hpos hpage
        (hdvd _ List.mem_cons_self) (fun a ha => hdvd a (List.mem_cons_of_mem _ ha)) hd
      exact ⟨hsize, congrArg₂ List.cons halign hdevices⟩

/-! ### Mapping chunks -/

namespace Chunked

variable {r r' : Chunked}

/-- Files are as long as chunks, and every chunk is in its place. -/
structure Fitted (r : Chunked) : Prop where
  pos : 0 < r.size
  page : sizePage ∣ r.size
  dvd : ∀ a ∈ r.backend.aligns, a ∣ r.size
  intact : r.Intact

/-- Two chunks share no address. -/
theorem chunk_disjoint {size start j k i : ℕ} (hjk : j ≠ k) (hi : i < size) :
    ¬(start + size * k ≤ start + size * j + i ∧ start + size * j + i < start + size * k + size) := by
  rintro ⟨hle, hlt⟩
  rcases Nat.lt_or_gt_of_ne hjk with h | h
  · have := Nat.mul_le_mul_left size h
    rw [Nat.mul_succ] at this
    omega
  · have := Nat.mul_le_mul_left size h
    rw [Nat.mul_succ] at this
    omega

theorem mapChunk_ok {k : ℕ} (hr : r.Fitted) (hmap : r.mapChunk k = .ok r') :
    ∃ file backend, file.size = r.size ∧ backend.aligns = r.backend.aligns ∧ r' = { r with
      backend := backend
      space := r.space.mmap file (r.start + r.size * k)
      opened := update r.opened k (some (file.source r.space.serial)) } := by
  rw [mapChunk] at hmap
  split at hmap
  · cases hmap
  · rename_i file backend hopen
    obtain rfl := Except.ok.inj hmap
    obtain ⟨hsize, haligns⟩ := Backend.openFile_ok hr.pos hr.page hr.dvd hopen
    exact ⟨file, backend, hsize, haligns, rfl⟩

/-- The mapping of one chunk leaves the backing of the others. -/
theorem mapChunk_backing {k j i : ℕ} (hr : r.Fitted) (hmap : r.mapChunk k = .ok r') (hjk : j ≠ k)
    (hi : i < r.size) : r'.space.backing (r.start + r.size * j + i)
      = r.space.backing (r.start + r.size * j + i) := by
  obtain ⟨file, backend, hsize, -, rfl⟩ := mapChunk_ok hr hmap
  refine if_neg ?_
  rw [hsize]
  exact chunk_disjoint hjk hi

theorem Fitted.mapChunk {k : ℕ} (hr : r.Fitted) (hmap : r.mapChunk k = .ok r') : r'.Fitted := by
  have hbacking := fun j i => mapChunk_backing (j := j) (i := i) hr hmap
  obtain ⟨file, backend, hsize, haligns, rfl⟩ := mapChunk_ok hr hmap
  refine ⟨hr.pos, hr.page, haligns ▸ hr.dvd, fun j source hj i hi => ?_⟩
  by_cases hjk : j = k
  · subst hjk
    have hj : update r.opened j _ j = some source := hj
    rw [update_self] at hj
    obtain rfl := Option.some.inj hj
    have hi : i < file.size := hsize.symm ▸ hi
    refine (if_pos ⟨Nat.le_add_right _ _, Nat.add_lt_add_left hi _⟩).trans ?_
    rw [Nat.add_sub_cancel_left]
  · have hj : update r.opened k _ j = some source := hj
    rw [update_of_ne hjk] at hj
    exact (hbacking j i hjk hi).trans (hr.intact j source hj i hi)

theorem Fitted.step (hr : r.Fitted) (hstep : Step r r') : r'.Fitted := by
  cases hstep with
  | map offset hfresh hmap => exact hr.mapChunk hmap
  | store address source byte hbacking => exact ⟨hr.pos, hr.page, hr.dvd, hr.intact⟩

/-- Mapping a chunk changes no byte of another. -/
theorem Fitted.unchanged {k : ℕ} (hr : r.Fitted) (hfresh : r.opened k = none)
    (hmap : r.mapChunk k = .ok r') : r.Unchanged r' := by
  intro j source hj i hi
  have hjk : j ≠ k := by
    rintro rfl
    rw [hfresh] at hj
    cases hj
  have hbytes : r'.space.bytes = r.space.bytes := by
    obtain ⟨file, backend, -, -, rfl⟩ := mapChunk_ok hr hmap
    rfl
  rw [Space.read, Space.read, mapChunk_backing hr hmap hjk hi, hbytes]

variable {backend : Backend} {start : ℕ} {bytes : Source → UInt8} {isLazy : Bool}

theorem fitted_new (hsize : 0 < size) (hdvd : ∀ a ∈ backend.aligns, a ∣ nextMultipleOf size sizePage)
    (hnew : new backend start size bytes isLazy = .ok r) : r.Fitted := by
  have hpos : 0 < nextMultipleOf size sizePage := by
    simp only [nextMultipleOf, sizePage]
    omega
  have hempty : Fitted
      { backend := backend, start := start, size := nextMultipleOf size sizePage
        space := { backing := fun _ => none, bytes := bytes, serial := 0 }
        opened := fun _ => none } :=
    ⟨hpos, Nat.dvd_mul_left _ _, hdvd, fun j source hj => by cases hj⟩
  rw [new] at hnew
  split_ifs at hnew
  · obtain rfl := Except.ok.inj hnew
    exact hempty
  · exact hempty.mapChunk hnew

/-- **Chunks on DAX devices stay apart** if every alignment divides the size of a chunk: each
stays backed by its own file, and mapping one changes no byte of another. -/
theorem chunks_apart {r₀ : Chunked} (hsize : 0 < size)
    (hdvd : ∀ a ∈ backend.aligns, a ∣ nextMultipleOf size sizePage)
    (hnew : new backend start size bytes isLazy = .ok r₀) (hrun : ReflTransGen Step r₀ r) :
    r.Intact ∧ ∀ offset, r.opened (offset / r.size) = none → ∀ r', r.map offset = .ok r' →
      r.Unchanged r' ∧ r'.Intact := by
  have hr : r.Fitted := by
    induction hrun with
    | refl => exact fitted_new hsize hdvd hnew
    | tail _ hstep ih => exact ih.step hstep
  exact ⟨hr.intact, fun offset hfresh r' hmap => ⟨hr.unchanged hfresh hmap, (hr.mapChunk hmap).intact⟩⟩

/-- One device with pages of 2 MiB. -/
def device : Backend :=
  .daxMmap (.new { devices := [{ size := 2 ^ 30, align := 2 ^ 21, offset := 0 }], next := 0 })

/-- Chunks of 2 MiB: the second is mapped first, and then the first. -/
theorem chunks_apart_aligned : ∃ r₀ r r' : Chunked,
    new device 0 (2 ^ 21) (fun _ => 0) true = .ok r₀ ∧ ReflTransGen Step r₀ r ∧
      r.opened 1 ≠ none ∧ r.map 0 = .ok r' ∧ r.Intact ∧ r.Unchanged r' ∧ r'.Intact := by
  have hdvd : ∀ a ∈ device.aligns, a ∣ nextMultipleOf (2 ^ 21) sizePage := by decide +kernel
  obtain ⟨r₀, hnew⟩ : ∃ r₀, new device 0 (2 ^ 21) (fun _ => 0) true = .ok r₀ := ⟨_, rfl⟩
  obtain ⟨r, r', hmap, hopened, hfresh, hfirst⟩ : ∃ r r', r₀.map (2 ^ 21) = .ok r ∧
      r.opened 1 ≠ none ∧ r.opened (0 / r.size) = none ∧ r.map 0 = .ok r' := by
    obtain rfl := Except.ok.inj hnew
    refine ⟨_, _, rfl, ?_, ?_, rfl⟩
    · intro h
      cases h
    · decide +kernel
  have hstep : Step r₀ r := by
    refine .map (2 ^ 21) ?_ hmap
    obtain rfl := Except.ok.inj hnew
    rfl
  obtain ⟨hintact, hunchanged⟩ := chunks_apart (by decide) hdvd hnew (.single hstep)
  obtain ⟨hsame, hintact'⟩ := hunchanged 0 hfresh r' hfirst
  exact ⟨r₀, r, r', hnew, .single hstep, hopened, hfirst, hintact, hsame, hintact'⟩

/-- Chunks of 1 MiB: the third is mapped first, and a byte is stored in it.  The second is
anonymous memory, of 2 MiB, and the byte is gone. -/
theorem chunk_clobbered : ∃ r₀ r₁ r r' : Chunked,
    new device 0 (2 ^ 20) (fun _ => 0) true = .ok r₀ ∧ r₀.map (2 ^ 21) = .ok r₁ ∧
      r₁.Step r ∧ r.opened 1 = none ∧ r.map (2 ^ 20) = .ok r' ∧
      r.space.read (2 ^ 21) = some 1 ∧ r'.space.read (2 ^ 21) = some 0 ∧
      ¬r.Unchanged r' ∧ ¬r'.Intact := by
  refine ⟨_, _, _, _, rfl, rfl, .store (2 ^ 21) (.device 0 0) 1 ?_, ?_, rfl, ?_, ?_, ?_, ?_⟩
  · decide +kernel
  · decide +kernel
  · decide +kernel
  · decide +kernel
  · intro h
    have hbyte := h 2 _ rfl 0 (by decide +kernel)
    exact absurd hbyte (by decide +kernel)
  · intro h
    have hbacking := h 2 _ rfl 0 (by decide +kernel)
    exact absurd hbacking (by decide +kernel)

end Chunked

end Cxlalloc
