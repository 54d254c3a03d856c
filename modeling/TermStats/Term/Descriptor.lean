import TermStats.Term.Basic
import TermStats.Error

/-!
Descriptors: all postings of one id, each with the source it was read from. They are kept in three
columns, which only ever grow together and so stay equally long.
-/

namespace TermStats

/-- The place and length of a posting list, and the source whose doc-id file holds it. -/
structure Posting where
  address : Int64
  freq : Int32
  source : UInt32
  deriving Repr, DecidableEq, Inhabited

def Posting.ofTerm (t : Term) (source : UInt32) : Posting :=
  ⟨t.offset, t.freq, source⟩

inductive DescriptorFault where
  | foreignTerm (term id : TermId)
  | foreignDescriptor (other id : TermId)
  /-- A column is not as long as the one before it. -/
  | uneven (column condition : String)
  deriving Repr, DecidableEq, Inhabited

def DescriptorFault.toError : DescriptorFault → Error
  | foreignTerm term id =>
      .invalidFormat "term descriptor" s!"term {term.text} appended to descriptor of {id.text}"
  | foreignDescriptor other id =>
      .invalidFormat "term descriptor" s!"descriptor of {other.text} merged into {id.text}"
  | uneven column condition => .invalidFormat column condition

/-- The addresses, freqs and sources of postings. -/
structure Columns where
  addresses : List Int64
  freqs : List Int32
  sources : List UInt32
  deriving Repr, DecidableEq, Inhabited

namespace Columns

def Aligned (c : Columns) : Prop :=
  c.freqs.length = c.addresses.length ∧ c.sources.length = c.freqs.length

def check (c : Columns) : Except DescriptorFault Unit :=
  if c.freqs.length ≠ c.addresses.length then
    .error (.uneven "doc_freqs" "self.doc_freqs.len() == self.docid_addresses.len()")
  else if c.sources.length ≠ c.freqs.length then
    .error (.uneven "sources" "self.sources.len() == self.doc_freqs.len()")
  else .ok ()

def push (c : Columns) (p : Posting) : Columns :=
  ⟨c.addresses ++ [p.address], c.freqs ++ [p.freq], c.sources ++ [p.source]⟩

def append (c other : Columns) : Columns :=
  ⟨c.addresses ++ other.addresses, c.freqs ++ other.freqs, c.sources ++ other.sources⟩

def postings (c : Columns) : List Posting :=
  (c.addresses.zip (c.freqs.zip c.sources)).map fun (address, freq, source) =>
    ⟨address, freq, source⟩

def ofPostings (ps : List Posting) : Columns :=
  ⟨ps.map (·.address), ps.map (·.freq), ps.map (·.source)⟩

theorem check_eq_ok {c : Columns} : c.check = .ok () ↔ c.Aligned := by
  rw [check, Aligned]
  split
  · rename_i uneven
    exact ⟨nofun, fun aligned => absurd aligned.1 uneven⟩
  · rename_i freqs
    split
    · rename_i uneven
      exact ⟨nofun, fun aligned => absurd aligned.2 uneven⟩
    · rename_i sources
      exact ⟨fun _ => ⟨Classical.not_not.mp freqs, Classical.not_not.mp sources⟩, fun _ => rfl⟩

theorem Aligned.push {c : Columns} (aligned : c.Aligned) (p : Posting) : (c.push p).Aligned := by
  obtain ⟨freqs, sources⟩ := aligned
  simp [Columns.push, Aligned, freqs, sources]

theorem Aligned.append {c other : Columns} (aligned : c.Aligned) (aligned' : other.Aligned) :
    (c.append other).Aligned := by
  obtain ⟨freqs, sources⟩ := aligned
  obtain ⟨freqs', sources'⟩ := aligned'
  simp [Columns.append, Aligned, freqs, sources, freqs', sources']

theorem aligned_ofPostings (ps : List Posting) : (ofPostings ps).Aligned := by
  simp [ofPostings, Aligned]

theorem ofPostings_append (ps qs : List Posting) :
    ofPostings (ps ++ qs) = (ofPostings ps).append (ofPostings qs) := by
  simp [ofPostings, append]

@[simp] theorem postings_ofPostings (ps : List Posting) : (ofPostings ps).postings = ps := by
  induction ps with
  | nil => rfl
  | cons p rest ih => exact congrArg (p :: ·) ih

/-- Aligned columns hold nothing but their postings. -/
theorem ofPostings_postings {c : Columns} (aligned : c.Aligned) : ofPostings c.postings = c := by
  obtain ⟨addresses, freqs, sources⟩ := c
  obtain ⟨hfreqs, hsources⟩ := aligned
  induction addresses generalizing freqs sources with
  | nil =>
      obtain rfl := List.length_eq_zero_iff.mp hfreqs
      obtain rfl := List.length_eq_zero_iff.mp hsources
      rfl
  | cons address addresses ih =>
      obtain ⟨freq, freqs, rfl⟩ := List.exists_cons_of_length_eq_add_one hfreqs
      obtain ⟨source, sources, rfl⟩ := List.exists_cons_of_length_eq_add_one hsources
      have rest := ih freqs sources (Nat.succ.inj hfreqs) (Nat.succ.inj hsources)
      exact congrArg (fun c => (⟨address :: c.addresses, freq :: c.freqs,
        source :: c.sources⟩ : Columns)) rest

end Columns

structure Descriptor where
  id : TermId
  columns : Columns
  aligned : columns.Aligned
  deriving Repr, DecidableEq

namespace Descriptor

def ofPostings (id : TermId) (ps : List Posting) : Descriptor :=
  ⟨id, .ofPostings ps, Columns.aligned_ofPostings ps⟩

def ofId (id : TermId) : Descriptor := ofPostings id []

/-- The empty descriptor, which stands where there is none. -/
def empty : Descriptor := ofId default

instance : Inhabited Descriptor := ⟨empty⟩

/-- The postings, taken from the columns. -/
def postings (d : Descriptor) : List Posting :=
  d.columns.postings

@[simp] theorem id_ofPostings (id : TermId) (ps : List Posting) : (ofPostings id ps).id = id := rfl

@[simp] theorem postings_ofPostings (id : TermId) (ps : List Posting) :
    (ofPostings id ps).postings = ps :=
  Columns.postings_ofPostings ps

@[simp] theorem columns_postings (d : Descriptor) : Columns.ofPostings d.postings = d.columns :=
  Columns.ofPostings_postings d.aligned

/-- A descriptor is determined by its id and its postings. -/
@[simp] theorem ofPostings_postings (d : Descriptor) : ofPostings d.id d.postings = d := by
  obtain ⟨id, columns, aligned⟩ := d
  simp only [ofPostings, Descriptor.mk.injEq, true_and]
  exact Columns.ofPostings_postings aligned

/-- Whether the columns are equally long. -/
def checkInvariant (d : Descriptor) : Except DescriptorFault Unit :=
  d.columns.check

/-- The check never fails: nothing lets the columns grow apart. -/
theorem checkInvariant_eq (d : Descriptor) : d.checkInvariant = .ok () :=
  Columns.check_eq_ok.mpr d.aligned

def push (d : Descriptor) (t : Term) (source : UInt32) : Except DescriptorFault Descriptor :=
  if t.id = d.id then .ok ⟨d.id, d.columns.push (.ofTerm t source), d.aligned.push _⟩
  else .error (.foreignTerm t.id d.id)

theorem push_eq {d : Descriptor} {t : Term} (h : t.id = d.id) (source : UInt32) :
    d.push t source = .ok (.ofPostings d.id (d.postings ++ [.ofTerm t source])) := by
  rw [push, if_pos h]
  simp only [ofPostings, Columns.ofPostings_append, columns_postings]
  rfl

/-- Appends the postings of another descriptor of the same id. -/
def append (d other : Descriptor) : Except DescriptorFault Descriptor :=
  if other.id = d.id then
    match other.checkInvariant with
    | .error f => .error f
    | .ok _ => .ok ⟨d.id, d.columns.append other.columns, d.aligned.append other.aligned⟩
  else .error (.foreignDescriptor other.id d.id)

theorem append_eq {d other : Descriptor} (h : other.id = d.id) :
    d.append other = .ok (.ofPostings d.id (d.postings ++ other.postings)) := by
  rw [append, if_pos h, checkInvariant_eq]
  simp only [ofPostings, Columns.ofPostings_append, columns_postings]

def count (d : Descriptor) : Nat :=
  d.columns.addresses.length

def isEmpty (d : Descriptor) : Bool :=
  d.count == 0

/-- The number of documents in all postings together. -/
def totalFreq (d : Descriptor) : Int64 :=
  d.columns.freqs.foldl (fun sum freq => sum + freq.toInt64) 0

theorem freqs_eq (d : Descriptor) : d.columns.freqs = d.postings.map (·.freq) :=
  congrArg Columns.freqs (columns_postings d).symm

def text (d : Descriptor) : String :=
  let places := (d.columns.addresses.zip d.columns.freqs).map fun (address, freq) =>
    s!"( {address}, {freq} )"
  s!"{d.id.text} \x7b" ++ " ".intercalate places ++ "\x7d"

end Descriptor
end TermStats
