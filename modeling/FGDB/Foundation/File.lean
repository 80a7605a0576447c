import FGDB.Foundation.Memory

/-!
# A file behind a descriptor

The content is a list of bytes and the descriptor has a position. Writing past
the end fills the gap with zeros; a read delivers at most what the file still
has and reports no error at its end. A call to write may transfer only part of
its bytes or none at all, so the outcome of each call is an input.
-/

namespace FGDB.Foundation

structure File where
  content : List UInt8
  position : ℕ
  deriving DecidableEq, Repr

/-- What one call to write does: transfer up to so many bytes, or fail. -/
inductive WriteOutcome
  | wrote (count : ℕ)
  | again
  | failed
  deriving DecidableEq, Repr

namespace File

def empty : File := ⟨[], 0⟩

def seek (file : File) (position : ℕ) : File := { file with position := position }

def seekEnd (file : File) : File := { file with position := file.content.length }

/-- Put bytes at a place of a content, over what is there. -/
def patch (content : List UInt8) (position : ℕ) (data : List UInt8) : List UInt8 :=
  if data = [] then content
  else content.take position ++ List.replicate (position - content.length) 0 ++ data ++
    content.drop (position + data.length)

def write (file : File) (data : List UInt8) : File where
  content := patch file.content file.position data
  position := file.position + data.length

def read (file : File) (count : ℕ) : File × List UInt8 :=
  ({ file with position := file.position + ((file.content.drop file.position).take count).length },
    (file.content.drop file.position).take count)

def truncate (file : File) (size : ℕ) : File :=
  { file with content := file.content.take size ++ List.replicate (size - file.content.length) 0 }

@[simp] theorem write_nil (file : File) : file.write [] = file := by
  simp [write, patch]

theorem write_end (content data : List UInt8) :
    write ⟨content, content.length⟩ data = ⟨content ++ data, (content ++ data).length⟩ := by
  by_cases hdata : data = [] <;> simp [write, patch, hdata]

theorem write_start {old data : List UInt8} (rest : List UInt8) (h : old.length = data.length) :
    write ⟨old ++ rest, 0⟩ data = ⟨data ++ rest, data.length⟩ := by
  by_cases hdata : data = []
  · simp_all [write, patch]
  · simp [write, patch, hdata, ← h]

theorem write_empty (data : List UInt8) : write ⟨[], 0⟩ data = ⟨data, data.length⟩ := by
  simpa using write_end [] data

/-- A read in the middle of a file delivers the bytes that follow its position. -/
theorem read_append {front middle back : List UInt8} {count : ℕ} (h : middle.length = count) :
    read ⟨front ++ (middle ++ back), front.length⟩ count =
      (⟨front ++ (middle ++ back), (front ++ middle).length⟩, middle) := by
  simp [read, ← h]

/-- The content as memory; behind its end there are zeros, as a write there would leave them. -/
def image (content : List UInt8) : Memory := fun place ↦ content[place]?.getD 0

theorem image_patch (content : List UInt8) (position : ℕ) (data : List UInt8) :
    image (patch content position data) = (image content).store position data := by
  by_cases hdata : data = []
  · rw [patch, if_pos hdata, hdata, Memory.store_nil]
  · funext place
    rw [patch, if_neg hdata]
    rcases lt_or_ge place position with hlt | hge
    · rw [Memory.store_of_lt _ _ _ hlt]
      simp only [image, List.append_assoc]
      rcases lt_or_ge place content.length with hin | hout
      · rw [List.getElem?_append_left (by simp; omega), List.getElem?_take_of_lt hlt]
      · rw [List.getElem?_append_right (by simp; omega), List.getElem?_append_left (by simp; omega),
          List.getElem?_eq_none hout, List.getElem?_replicate]
        split <;> rfl
    · have hfront : (content.take position ++ List.replicate (position - content.length) 0).length =
          position := by
        simp
        omega
      rcases lt_or_ge place (position + data.length) with hlt | hend
      · obtain ⟨index, rfl⟩ : ∃ index, place = position + index := ⟨place - position, by omega⟩
        have hindex : index < data.length := by omega
        rw [Memory.store_inside _ _ _ hindex]
        simp only [image]
        rw [List.getElem?_append_left (by simp; omega), List.getElem?_append_right (by omega), hfront,
          Nat.add_sub_cancel_left, List.getElem?_eq_getElem hindex, Option.getD_some]
      · rw [Memory.store_of_le _ _ _ hend]
        simp only [image]
        rw [List.getElem?_append_right (by simp; omega), List.getElem?_drop]
        congr 2
        simp
        omega

theorem length_patch (content : List UInt8) (position : ℕ) {data : List UInt8} (h : data ≠ []) :
    (patch content position data).length = max content.length (position + data.length) := by
  rw [patch, if_neg h]
  simp
  omega

/-- A write cuts nothing off. -/
theorem length_le_write (file : File) (data : List UInt8) :
    file.content.length ≤ (file.write data).content.length := by
  by_cases hdata : data = []
  · rw [hdata, write_nil]
  · rw [write, length_patch _ _ hdata]
    exact le_max_left _ _

/-- A read inside the file is a load of its image. -/
theorem read_inside (file : File) {count : ℕ} (h : file.position + count ≤ file.content.length) :
    file.read count = ({ file with position := file.position + count },
      (image file.content).load file.position count) := by
  have hdata : (file.content.drop file.position).take count =
      (image file.content).load file.position count := by
    apply List.ext_getElem
    · simp
      omega
    · intro index hindex hload
      rw [Memory.getElem_load, List.getElem_take, List.getElem_drop]
      simp only [List.length_take, List.length_drop] at hindex
      rw [image, List.getElem?_eq_getElem (by omega), Option.getD_some]
  rw [read, hdata, Memory.length_load]

/-- The content up to the position, as cutting the file there leaves it. -/
def upTo (file : File) : List UInt8 := (file.truncate file.position).content

@[simp] theorem length_upTo (file : File) : file.upTo.length = file.position := by
  simp [upTo, truncate]
  omega

/-- What is in front of the position is never touched by later writes. -/
theorem upTo_write (file : File) (data : List UInt8) :
    (file.write data).upTo = file.upTo ++ data := by
  by_cases hdata : data = []
  · rw [hdata, write_nil, List.append_nil]
  · have hcontent : (file.write data).content =
        file.upTo ++ data ++ file.content.drop (file.position + data.length) := by
      rw [write, patch, if_neg hdata, upTo, truncate]
    have hposition : (file.write data).position = (file.upTo ++ data).length := by
      rw [List.length_append, length_upTo, write]
    rw [upTo, truncate, hcontent, hposition, List.take_left' rfl]
    simp

end File

end FGDB.Foundation
