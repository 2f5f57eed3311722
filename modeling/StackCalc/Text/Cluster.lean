import StackCalc.Text.BreakClass

/-!
Texts cut into clusters: the units that a reader takes for single characters, such as a letter with
its accents, a flag, or a picture that is joined from several. The rules are those of the Unicode
standard for extended grapheme clusters. Nothing is lost or moved by the cut.
-/
namespace StackCalc.Text

open BreakClass

/-- Whether a cluster, its last character first, ends with a consonant and marks after it, one of
which links it to the next consonant. -/
def endsLinked (cluster : List Char) : Bool :=
  let inChain := fun c => of c = .extend || of c = .linker || of c = .joiner
  (cluster.takeWhile inChain).any (of · = .linker) &&
    (cluster.dropWhile inChain).head?.any (of · = .consonant)

/-- Whether a cluster, its last character first, ends with a pictograph, marks and a joiner. -/
def endsJoined : List Char → Bool
  | [] => false
  | last :: earlier =>
    of last = .joiner &&
      (earlier.dropWhile fun c => (of c).isExtender).head?.any (of · = .pictograph)

/-- Whether a cluster, its last character first, ends with half of a flag. -/
def endsInHalfFlag (cluster : List Char) : Bool :=
  (cluster.takeWhile (of · = .regional)).length % 2 = 1

/-- Whether a character belongs to the cluster that has been read, its last character first. -/
def joins (cluster : List Char) (next : Char) : Bool :=
  match cluster with
  | [] => false
  | last :: _ =>
    let before := of last
    let after := of next
    before = .carriageReturn && after = .lineFeed ||
      !before.isControl && !after.isControl &&
        (after.isMark || before = .prepended || sameSyllable before after ||
          after = .consonant && endsLinked cluster ||
          after = .pictograph && endsJoined cluster ||
          after = .regional && endsInHalfFlag cluster)

/-- The clusters of a text, of which the first has been read up to the given characters, the last
one first. -/
def clustersFrom (cluster : List Char) : List Char → List (List Char)
  | [] => [cluster.reverse]
  | c :: rest =>
    if joins cluster c then clustersFrom (c :: cluster) rest
    else cluster.reverse :: clustersFrom [c] rest

/-- The clusters of a text, in order. -/
def clusters : List Char → List (List Char)
  | [] => []
  | c :: rest => clustersFrom [c] rest

theorem flatten_clustersFrom (cluster text : List Char) :
    (clustersFrom cluster text).flatten = cluster.reverse ++ text := by
  induction text generalizing cluster with
  | nil => simp [clustersFrom]
  | cons c rest ih =>
    unfold clustersFrom
    split
    · simp [ih]
    · simp [ih]

theorem flatten_clusters (text : List Char) : (clusters text).flatten = text := by
  cases text with
  | nil => rfl
  | cons c rest => simp [clusters, flatten_clustersFrom]

end StackCalc.Text
