import CppDone.HttpClient.Transfer
import Mathlib.Data.List.Basic

/-!
# The upload of `doPut`

`doPut` finds the size of the upload file by going to its end, and hands the same stream to curl,
which reads it through `readCallback` in pieces of its own choosing. Both work on one stream
position, so what curl gets is what is behind the position that the size was read from.

The reading itself is right: from wherever the stream stands, the pieces are the rest of the file
(`perform_eq`), and the end is reached (`perform_ends`). The position is not: nothing goes back to
the beginning.
-/

set_option autoImplicit false

namespace CppDone.HttpClient

/-! ## stdio

A stream is a file's bytes and a position. Reading moves it on, and `fseek` sets it; errors of the
disk are left out. -/

/-- A stream that is open for reading. The position may be behind the end, and then there is nothing
to read. -/
structure FILE where
  content : List UInt8
  pos : Nat
deriving DecidableEq, Repr

inductive Whence where
  | SEEK_SET
  | SEEK_CUR
  | SEEK_END
deriving DecidableEq, Repr

def fopen (content : List UInt8) : FILE := { content, pos := 0 }

/-- A position before the beginning is an error, and leaves the stream where it is. -/
def fseek (fp : FILE) (offset : Int) (whence : Whence) : FILE :=
  let base : Nat :=
    match whence with
    | .SEEK_SET => 0
    | .SEEK_CUR => fp.pos
    | .SEEK_END => fp.content.length
  if base + offset < 0 then fp else { fp with pos := (base + offset).toNat }

def ftell (fp : FILE) : Nat := fp.pos

/-- The bytes read, the number of whole items among them, and the stream behind them. -/
def fread (size nMember : Nat) (fp : FILE) : List UInt8 × Nat × FILE :=
  let data := (fp.content.drop fp.pos).take (size * nMember)
  (data, data.length / size, { fp with pos := fp.pos + data.length })

/-! ## `readCallback` and `doPut`

The part of `doPut` that has to do with the stream, in the order of the source: open, go to the end,
ask for the position, hand the stream over. -/

/-- The bytes put into `data`, the value returned, and the stream. -/
def readCallback (size nMember : Nat) (stream : FILE) : List UInt8 × Nat × FILE :=
  fread size nMember stream

/-- What `doPut` gives to the options `CURLOPT_READDATA` and `CURLOPT_INFILESIZE_LARGE`. The stream
goes to curl as it stands. -/
structure Upload where
  readData : FILE
  infileSize : Nat
deriving DecidableEq, Repr

/-- The stream part of `doPut`, with `files` for the contents of the files. -/
def doPutUpload (files : String → List UInt8) (request : HttpRequest) : Option Upload :=
  if request.uploadFilePath_ ≠ "" then
    let fp := fopen (files request.uploadFilePath_)
    let fp := fseek fp 0 .SEEK_END
    let size := ftell fp
    some { readData := fp, infileSize := size }
  else none

/-- `curl_easy_perform` as far as the upload goes: `readCallback` with items of one byte and a
buffer of each of the given sizes, until it returns 0. The bytes it has got, and whether it has
come to that. -/
def perform : FILE → List Nat → List UInt8 × Bool
  | _, [] => ([], false)
  | stream, bufferSize :: bufferSizes =>
    let (data, nRead, stream) := readCallback 1 bufferSize stream
    if nRead = 0 then ([], true)
    else
      let (rest, ended) := perform stream bufferSizes
      (data ++ rest, ended)

/-! ## What is sent

curl asks for pieces until it gets an empty one. Whatever sizes it asks for, the pieces put together
are what the stream has from where it stands. -/

/-- What a stream still has to give. -/
def FILE.rest (fp : FILE) : List UInt8 := fp.content.drop fp.pos

/-- The stream after a read of at most `n` bytes. -/
def FILE.skip (n : Nat) (fp : FILE) : FILE := { fp with pos := fp.pos + (fp.rest.take n).length }

theorem FILE.rest_skip (n : Nat) (fp : FILE) : (fp.skip n).rest = fp.rest.drop n := by
  have hdrop : (fp.skip n).rest = fp.rest.drop (fp.rest.take n).length := by
    rw [rest, rest, List.drop_drop]
    rfl
  rw [hdrop, List.length_take]
  rcases Nat.le_total n fp.rest.length with h | h
  · rw [Nat.min_eq_left h]
  · rw [Nat.min_eq_right h, List.drop_length, List.drop_eq_nil_of_le h]

/-- A call gives the beginning of the rest. -/
theorem readCallback_one (bufferSize : Nat) (stream : FILE) :
    readCallback 1 bufferSize stream =
      (stream.rest.take bufferSize, (stream.rest.take bufferSize).length,
        stream.skip bufferSize) := by
  rw [readCallback, fread, Nat.one_mul, Nat.div_one]
  rfl

/-- One turn of the loop, with a buffer that has room. -/
theorem perform_cons {bufferSize : Nat} (h : 0 < bufferSize) (bufferSizes : List Nat)
    (stream : FILE) :
    perform stream (bufferSize :: bufferSizes) =
      if stream.rest = [] then ([], true)
      else (stream.rest.take bufferSize ++ (perform (stream.skip bufferSize) bufferSizes).1,
        (perform (stream.skip bufferSize) bufferSizes).2) := by
  have hzero : (stream.rest.take bufferSize).length = 0 ↔ stream.rest = [] := by
    rw [List.length_eq_zero_iff, List.take_eq_nil_iff]
    exact or_iff_right (Nat.ne_of_gt h)
  rw [perform, readCallback_one]
  simp only [hzero]

/-- **The pieces are the rest of the file**, whatever sizes they are asked for in. -/
theorem perform_eq {bufferSizes : List Nat} (hpos : ∀ n ∈ bufferSizes, 0 < n) {stream : FILE}
    (hend : (perform stream bufferSizes).2 = true) :
    (perform stream bufferSizes).1 = stream.rest := by
  induction bufferSizes generalizing stream with
  | nil => cases hend
  | cons bufferSize bufferSizes ih =>
    rw [List.forall_mem_cons] at hpos
    rw [perform_cons hpos.1] at hend ⊢
    split_ifs at hend ⊢ with hrest
    · exact hrest.symm
    · rw [ih hpos.2 hend, FILE.rest_skip, List.take_append_drop]

/-- Every call but the last takes a byte, so no more are needed than there are bytes, and one. -/
theorem perform_ends {bufferSizes : List Nat} (hpos : ∀ n ∈ bufferSizes, 0 < n) {stream : FILE}
    (hlen : stream.rest.length < bufferSizes.length) : (perform stream bufferSizes).2 = true := by
  induction bufferSizes generalizing stream with
  | nil => exact absurd hlen (Nat.not_lt_zero _)
  | cons bufferSize bufferSizes ih =>
    rw [List.forall_mem_cons] at hpos
    rw [perform_cons hpos.1]
    split_ifs with hrest
    · rfl
    · refine ih hpos.2 ?_
      have hsome : 0 < stream.rest.length := List.length_pos_iff.mpr hrest
      rw [FILE.rest_skip, List.length_drop]
      rw [List.length_cons] at hlen
      have := hpos.1
      omega

theorem fseek_end (fp : FILE) : fseek fp 0 .SEEK_END = { fp with pos := fp.content.length } := by
  have hpos : ¬ (fp.content.length : Int) < 0 := by omega
  simp only [fseek, Int.add_zero, Int.toNat_natCast, if_neg hpos]

/-- The stream is at its end when curl gets it. -/
theorem doPutUpload_eq {files : String → List UInt8} {request : HttpRequest} {u : Upload}
    (h : doPutUpload files request = some u) :
    u.readData.rest = [] ∧ u.infileSize = (files request.uploadFilePath_).length := by
  simp only [doPutUpload, Option.ite_none_right_eq_some, Option.some.injEq] at h
  rw [← h.2, fseek_end]
  exact ⟨List.drop_length, rfl⟩

/-- **A PUT sends its upload file, of the size it announces, exactly when the file is empty.** -/
theorem doPut_sends_iff (files : String → List UInt8) (request : HttpRequest) (u : Upload)
    (hu : doPutUpload files request = some u) (bufferSizes : List Nat)
    (hpos : ∀ n ∈ bufferSizes, 0 < n) (hend : (perform u.readData bufferSizes).2 = true) :
    ((perform u.readData bufferSizes).1 = files request.uploadFilePath_ ∧
        (perform u.readData bufferSizes).1.length = u.infileSize) ↔
      files request.uploadFilePath_ = [] := by
  obtain ⟨hrest, hsize⟩ := doPutUpload_eq hu
  rw [perform_eq hpos hend, hrest, hsize]
  constructor
  · intro h
    exact h.1.symm
  · intro h
    rw [h]
    exact ⟨rfl, rfl⟩

def putRequest : HttpRequest :=
  { requestType_ := .PUT, headers_ := [], uploadFilePath_ := "data.bin" }

/-- Three bytes, asked for in a small buffer and a large one. -/
theorem doPut_sends_iff_three :
    ((perform { content := [1, 2, 3], pos := 3 } [2, 16384]).1 = [1, 2, 3] ∧
        (perform { content := [1, 2, 3], pos := 3 } [2, 16384]).1.length = 3) ↔
      ([1, 2, 3] : List UInt8) = [] :=
  doPut_sends_iff (fun _ => [1, 2, 3]) putRequest
    { readData := { content := [1, 2, 3], pos := 3 }, infileSize := 3 } (by decide) [2, 16384]
    (by decide) (by decide)

/-- Three bytes are announced and none is sent. -/
theorem three_bytes_not_sent :
    ∃ u, doPutUpload (fun _ => [1, 2, 3]) putRequest = some u ∧ u.infileSize = 3 ∧
      perform u.readData [16384] = ([], true) := by
  exact ⟨{ readData := { content := [1, 2, 3], pos := 3 }, infileSize := 3 },
    by decide, rfl, by decide⟩

end CppDone.HttpClient
