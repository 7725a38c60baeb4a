import NovaBase.Core.Error
import NovaBase.Lib.Action
import NovaBase.Lib.Bytes
import NovaBase.Lib.SortedMap
import Mathlib.Data.String.Basic

/-!
# A directory of files

A directory maps the names of its files to their bytes. A file operation fails
only when the file that it names is missing, or is there already.
-/

namespace NovaBase

open Lib

/-- The files of a directory. -/
abbrev Directory := SortedMap String Bytes

namespace Directory

/-- Make a new file. -/
def createNew (path : String) (cause : NovaError) (bytes : Bytes) : Action Failure Directory Unit :=
  fun directory =>
    if directory.contains path then (.error (.error cause), directory)
    else (.ok (), directory.insert path bytes)

/-- Write a file that is there, from its start. -/
def overwrite (path : String) (bytes : Bytes) : Action Failure Directory Unit := fun directory =>
  if directory.contains path then (.ok (), directory.insert path bytes)
  else (.error (.error .io), directory)

/-- Remove a file that is there. -/
def removeFile (path : String) : Action Failure Directory Unit := fun directory =>
  if directory.contains path then (.ok (), directory.remove path)
  else (.error (.error .io), directory)

variable {directory : Directory} {path : String} {bytes : Bytes}

theorem contains_insert (directory : Directory) (path : String) (bytes : Bytes) (other : String) :
    (directory.insert path bytes).contains other ↔ path = other ∨ directory.contains other := by
  simp only [SortedMap.contains, SortedMap.get_insert]
  split <;> simp_all

theorem contains_remove (directory : Directory) (path other : String) :
    (directory.remove path).contains other ↔ path ≠ other ∧ directory.contains other := by
  simp only [SortedMap.contains, SortedMap.get_remove]
  split <;> simp_all

theorem createNew_of_not_contains {cause : NovaError} (h : ¬directory.contains path) :
    createNew path cause bytes directory = (.ok (), directory.insert path bytes) :=
  if_neg h

theorem overwrite_of_contains (h : directory.contains path) :
    overwrite path bytes directory = (.ok (), directory.insert path bytes) :=
  if_pos h

theorem removeFile_of_contains (h : directory.contains path) :
    removeFile path directory = (.ok (), directory.remove path) :=
  if_pos h

end Directory

end NovaBase
