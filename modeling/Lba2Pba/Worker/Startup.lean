import Lba2Pba.Py.Loop
import Lba2Pba.Py.Str

/-!
# The bricks of a node: `WInit` and `getBricks`

`WInit` asks gluster for its volumes and runs the script `getBricks` for each of them. The
script filters the volumes a second time, by `grep` with the name it is given, and the
rows of their status by `grep` with the name of the host. Every line it prints starts a
scan and a monitor, under the volume of the line and with the type of the volume that
the script was asked for. `Cluster` has the volumes and what gluster prints about them:
a brick whose name is longer than its column takes several lines of the status.
-/

namespace Lba2Pba.Worker

open Py

/-! ## The commands -/

/-- The lines that a command writes. -/
structure Output where
  out : List String
  err : List String

/-- The text of `getstatusoutput`. What goes to the terminal as an error comes first,
since the rest is buffered. -/
def Output.text (o : Output) : String := Str.join "\n" (o.err ++ o.out)

/-- The commands that `WInit` and `getBricks` run: `gluster volume list` (an error if its
exit code is not 0), `gluster volume status` and `gluster volume info` of a volume,
`hostname`, which prints one line, and `hostname -i`. -/
structure Shell where
  volumeList : Except String Output
  volumeStatus : String → Output
  volumeInfo : String → Output
  hostname : String
  hostIP : Output

/-- A pattern of `grep` at the start of a text, where a dot stands for any character. -/
def matchesAt : List Char → List Char → Bool
  | [], _ => true
  | _ :: _, [] => false
  | p :: pattern, c :: l => (p = '.' || p = c) && matchesAt pattern l

/-- A line that `grep` prints. The patterns here have no special character but the dot. -/
def grepLine (pattern line : String) : Bool := line.toList.tails.any (matchesAt pattern.toList)

def grep (pattern : String) (lines : List String) : List String := lines.filter (grepLine pattern)

/-- `split(/\s+/, $line)`, which keeps an empty field before leading white space. -/
def rowFields (line : String) : List String :=
  if line.toList.head?.any Str.isBlank then "" :: Str.wordsBy Str.isBlank line
  else Str.wordsBy Str.isBlank line

/-- `$brick`: what follows the colon in the second field of a row of the status. A value
that is not defined is printed as the empty text. -/
def brickOfRow (row : String) : String :=
  (Str.split ((rowFields row)[1]?.getD "") ":")[1]?.getD ""

/-- What is printed for each text followed by the output of a command. The line breaks are
those of the output, and without any all texts are on one line. -/
def printLines (texts : List String) : List String → List String
  | [] => if texts = [] then [] else [Str.join "" texts]
  | line :: rest => texts.flatMap (fun text => (text ++ line) :: rest)

/-- `getBricks -n name`. -/
def getBricks (sh : Shell) (name : String) : Output :=
  let list : Output := match sh.volumeList with
    | .ok res => res
    | .error err => ⟨[], [err]⟩
  let volumes := grep name list.out
  let texts := volumes.flatMap (fun volume =>
    (grep sh.hostname (sh.volumeStatus volume).out).map (fun row =>
      volume ++ " " ++ brickOfRow row ++ " "))
  { out := printLines texts sh.hostIP.out
    err := list.err ++ sh.hostIP.err ++
      volumes.flatMap (fun volume => (sh.volumeStatus volume).err) }

/-- `cut -d":" -f2 | sed "s/ //g"`. -/
def cutType (line : String) : String :=
  match Str.split line ":" with
  | _ :: field :: _ => Str.remove field ' '
  | _ => Str.remove line ' '

/-- `typeCmd`. -/
def volumeType (sh : Shell) (volume : String) : String :=
  let info := sh.volumeInfo volume
  Output.text ⟨(grep "Type" info.out).map cutType, info.err⟩

/-! ## The loop of `WInit` -/

/-- The arguments of a scan and of a monitor. -/
structure Label where
  path : String
  volName : String
  type : String
deriving DecidableEq

/-- The scans that have been made (`getFilePba`) and the monitors that have been
started (`_monitor`). -/
structure Started where
  scans : List Label
  monitors : List Label
deriving DecidableEq

def Started.add (st : Started) (labels : List Label) : Started :=
  ⟨st.scans ++ labels, st.monitors ++ labels⟩

/-- `volName, path, ip = line.split()`, which needs three words. -/
def labelOf (type line : String) : Option Label :=
  match Str.words line with
  | [volName, path, _] => some ⟨path, volName, type⟩
  | _ => none

/-- A line of `getBricks`. -/
def startLine (type : String) (st : Started) (line : String) : Except Err Started :=
  match labelOf type line with
  | some label => .ok (st.add [label])
  | none => .error .valueError

/-- The lines of `getBricks -n {volume}`. The shell passes on the first word of the volume;
without one the script ends with an error, which `WInit` logs. -/
def bricksOf (sh : Shell) (volume : String) : List String :=
  match Str.wordsBy Str.isBlank volume with
  | [] => []
  | name :: _ => Str.split (getBricks sh name).text "\n"

/-- `WInit`. The branch for a list that fails names a module that is not there. The pipe
for the type has the exit code of `sed`, which is 0. -/
def wInit (sh : Shell) : Except Err Started :=
  match sh.volumeList with
  | .error _ => .error .nameError
  | .ok res => (Str.split res.text "\n").foldlM (fun st volume =>
      (bricksOf sh volume).foldlM (startLine (volumeType sh volume)) st) ⟨[], []⟩

/-- All lines have to have three words. -/
theorem wInit_iff {sh : Shell} {res : Output} (h : sh.volumeList = .ok res) {st : Started} :
    wInit sh = .ok st ↔
      (∀ volume ∈ Str.split res.text "\n", ∀ line ∈ bricksOf sh volume,
        (labelOf (volumeType sh volume) line).isSome = true) ∧
      st = Started.add ⟨[], []⟩ ((Str.split res.text "\n").flatMap (fun volume =>
        (bricksOf sh volume).filterMap (labelOf (volumeType sh volume)))) := by
  have hflat : wInit sh = ((Str.split res.text "\n").flatMap (fun volume =>
      (bricksOf sh volume).map (fun line => (volumeType sh volume, line)))).foldlM
        (fun st x => startLine x.1 st x.2) ⟨[], []⟩ := by
    rw [foldlM_flatMap]
    simp only [wInit, h, List.foldlM_map]
  have hstart : ∀ (st : Started) (x : String × String) (t : Started),
      startLine x.1 st x.2 = .ok t ↔
        ∃ label, labelOf x.1 x.2 = some label ∧ t = st.add [label] := by
    intro st x t
    cases hl : labelOf x.1 x.2 with
    | none => simp [startLine, hl]
    | some label => simp [startLine, hl, eq_comm]
  rw [hflat, foldlM_append_iff Started.add (fun _ => by simp [Started.add])
    (fun _ _ _ => by simp [Started.add]) hstart, List.filterMap_flatMap]
  simp only [List.forall_mem_flatMap, List.forall_mem_map, List.filterMap_map, Function.comp_def]

/-! ## What `grep` finds -/

theorem matchesAt_of_prefix {pattern l : List Char} (h : pattern <+: l) :
    matchesAt pattern l = true := by
  induction pattern generalizing l with
  | nil => rfl
  | cons p pattern ih =>
    obtain ⟨rest, rfl⟩ := h
    rw [List.cons_append, matchesAt, ih (List.prefix_append pattern rest)]
    simp

theorem prefix_of_matchesAt {pattern l : List Char} (hdot : '.' ∉ pattern)
    (h : matchesAt pattern l = true) : pattern <+: l := by
  induction pattern generalizing l with
  | nil => exact List.nil_prefix
  | cons p pattern ih =>
    rw [List.mem_cons, not_or] at hdot
    cases l with
    | nil => cases h
    | cons c l =>
      rw [matchesAt, Bool.and_eq_true] at h
      have hc : p = c := by simpa [Ne.symm hdot.1] using h.1
      exact List.cons_prefix_cons.2 ⟨hc, ih hdot.2 h.2⟩

theorem grepLine_of_isIn {pattern line : String} (h : Str.isIn pattern line = true) :
    grepLine pattern line = true := by
  obtain ⟨l, hp, hs⟩ := List.infix_iff_prefix_suffix.1 (Str.isIn_iff.1 h)
  exact List.any_eq_true.2 ⟨l, (List.mem_tails _ _).2 hs, matchesAt_of_prefix hp⟩

/-- A pattern without dots stands for itself. -/
theorem grepLine_eq {pattern : String} (hdot : '.' ∉ pattern.toList) (line : String) :
    grepLine pattern line = Str.isIn pattern line := by
  rw [Bool.eq_iff_iff]
  refine ⟨fun h => ?_, grepLine_of_isIn⟩
  obtain ⟨l, hl, hm⟩ := List.any_eq_true.1 h
  exact Str.isIn_iff.2
    (List.infix_iff_prefix_suffix.2 ⟨l, prefix_of_matchesAt hdot hm, (List.mem_tails _ _).1 hl⟩)

/-! ## The volumes of a cluster -/

/-- The lines of a text in a column of 43 characters: what is longer goes on in the next
line, and the other columns stand behind the last part. `fuel` is the length of the text. -/
def wrap (columns : String) : Nat → List Char → List String
  | fuel + 1, l =>
    if 43 < l.length then String.ofList (l.take 43) :: wrap columns fuel (l.drop 43)
    else [String.ofList (l ++ List.replicate (44 - l.length) ' ') ++ columns]
  | 0, _ => []

/-- A brick `host:path`, with the other columns of its row in the status, and the lines
that the command prints for it. The column is measured in bytes, so that these are known
for texts in ASCII. Gluster takes absolute paths only. -/
structure GlusterBrick where
  host : String
  path : String
  columns : String
  isLocal : Bool
  lines : List String
  path_head : path.toList.head? = some '/'
  lines_eq : (∀ c ∈ ("Brick " ++ host ++ ":" ++ path).toList, c.toNat < 128) →
    lines = wrap columns ("Brick " ++ host ++ ":" ++ path).length
      ("Brick " ++ host ++ ":" ++ path).toList

/-- A volume, with the lines of its status beside the header and the bricks, and those of
its info beside the name and the type. Gluster allows letters, digits, `-` and `_` in a
name and no `-` at its start, and takes no brick twice. The other lines of the status are
those of the daemons and of the tasks. -/
structure GlusterVolume where
  name : String
  type : String
  started : Bool
  bricks : List GlusterBrick
  status : List String
  info : List String
  name_ne : name.toList ≠ []
  name_chars : ∀ c ∈ name.toList, c.isAlphanum = true ∨ c = '-' ∨ c = '_'
  name_head : name.toList.head? ≠ some '-'
  type_chars : ∀ c ∈ type.toList, c ≠ ':' ∧ c ≠ ' ' ∧ c ≠ '\n'
  paths : ((bricks.filter GlusterBrick.isLocal).map GlusterBrick.path).Nodup

namespace GlusterVolume

variable (v : GlusterVolume)

def header : String := "Status of volume: " ++ v.name

def table : List String := v.header :: (v.bricks.flatMap GlusterBrick.lines ++ v.status)

/-- `gluster volume status`. -/
def volumeStatus : Output :=
  if v.started then ⟨v.table, []⟩ else ⟨[], ["Volume " ++ v.name ++ " is not started"]⟩

/-- `gluster volume info`. -/
def volumeInfo : Output :=
  ⟨("Volume Name: " ++ v.name) :: ("Type: " ++ v.type) :: v.info, []⟩

end GlusterVolume

/-- The volumes and the node that is looked at. Its name has letters, digits, `-` and `.`
and no `-` at its start. It can have any number of addresses; without one, `hostname -i`
fails. -/
structure Cluster where
  volumes : List GlusterVolume
  hostname : String
  addresses : List String
  names : (volumes.map GlusterVolume.name).Nodup
  hostname_ne : hostname.toList ≠ []
  hostname_chars : ∀ c ∈ hostname.toList, c.isAlphanum = true ∨ c = '-' ∨ c = '.'
  hostname_head : hostname.toList.head? ≠ some '-'
  address_word : ∀ a ∈ addresses, Str.IsWord a
  address_head : ∀ a ∈ addresses, a.toList.head? ≠ some '/'

namespace Cluster

variable (c : Cluster)

/-- What a command prints about a volume by its name. -/
def about (f : GlusterVolume → Output) (name : String) : Output :=
  match c.volumes.find? (fun v => v.name = name) with
  | some v => f v
  | none => ⟨[], ["Volume " ++ name ++ " does not exist"]⟩

/-- `hostname -i`. -/
def hostIP : Output :=
  match c.addresses with
  | [] => ⟨[], ["hostname: Name or service not known"]⟩
  | _ => ⟨[Str.join " " c.addresses], []⟩

def shell : Shell where
  volumeList := .ok (match c.volumes with
    | [] => ⟨[], ["No volumes present in cluster"]⟩
    | _ => ⟨c.volumes.map GlusterVolume.name, []⟩)
  volumeStatus := c.about GlusterVolume.volumeStatus
  volumeInfo := c.about GlusterVolume.volumeInfo
  hostname := c.hostname
  hostIP := c.hostIP

end Cluster

end Lba2Pba.Worker
