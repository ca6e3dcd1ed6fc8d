import ItemMapper.Payload.Codec
import ItemMapper.Wire.Marshal

/-!
# Configuration

The mapper's settings, read from JSON or from named variables of an environment.
-/

namespace ItemMapper

structure Config where
  removeUndefined : Bool := true
  readCapacity : Int := 1
  writeCapacity : Int := 1
  traceExpressions : Bool := false
  deriving DecidableEq, Repr

namespace Config

def removeMember : Member Bool := .required "removeUndefinedValues" .bool
def readMember : Member Int := .required "defaultReadCapacity" .int64
def writeMember : Member Int := .required "defaultWriteCapacity" .int64
def traceMember : Member Bool := .required "traceExpressions" .bool

def codec : Codec Config where
  encode x := .object (removeMember.write x.removeUndefined ++ readMember.write x.readCapacity ++
    writeMember.write x.writeCapacity ++ traceMember.write x.traceExpressions)
  decode := (RecordReader.make Config.mk |>.and removeMember |>.and readMember |>.and writeMember
    |>.and traceMember).decode

def marshalOptions (c : Config) : MarshalOptions := ⟨c.removeUndefined⟩

def flagOf (text : String) : Bool :=
  text == "1" || text.toList.map NumberReader.asciiLower == ['t', 'r', 'u', 'e']

def capacityOf (text : Option String) : Int := (text.bind fun t => NumberReader.word? t.toList).getD 1

def ofEnvironment (setting? : String → Option String) : Config where
  removeUndefined := ((setting? "REMOVE_UNDEFINED_VALUES").map flagOf).getD true
  readCapacity := capacityOf (setting? "DEFAULT_READ_CAPACITY")
  writeCapacity := capacityOf (setting? "DEFAULT_WRITE_CAPACITY")
  traceExpressions := ((setting? "TRACE_EXPRESSIONS").map flagOf).getD false

end Config

end ItemMapper
