/-! The attributes that have a meaning, and their names. -/
namespace ClassFormat

/-- Whether running programs can see an annotation. -/
inductive Visibility where
  | visible
  | invisible
  deriving DecidableEq, Repr

inductive AttributeKind where
  | constantValue
  | code
  | stackMapTable
  | exceptions
  | innerClasses
  | enclosingMethod
  | synthetic
  | signature
  | sourceFile
  | sourceDebugExtension
  | lineNumberTable
  | localVariableTable
  | localVariableTypeTable
  | deprecated
  | annotations (visibility : Visibility)
  | parameterAnnotations (visibility : Visibility)
  | typeAnnotations (visibility : Visibility)
  | annotationDefault
  | bootstrapMethods
  | methodParameters
  | moduleInfo
  | modulePackages
  | moduleMainClass
  | nestHost
  | nestMembers
  | recordInfo
  | permittedSubclasses
  deriving DecidableEq, Repr

namespace AttributeKind

def name : AttributeKind → String
  | constantValue => "ConstantValue"
  | code => "Code"
  | stackMapTable => "StackMapTable"
  | exceptions => "Exceptions"
  | innerClasses => "InnerClasses"
  | enclosingMethod => "EnclosingMethod"
  | synthetic => "Synthetic"
  | signature => "Signature"
  | sourceFile => "SourceFile"
  | sourceDebugExtension => "SourceDebugExtension"
  | lineNumberTable => "LineNumberTable"
  | localVariableTable => "LocalVariableTable"
  | localVariableTypeTable => "LocalVariableTypeTable"
  | deprecated => "Deprecated"
  | annotations .visible => "RuntimeVisibleAnnotations"
  | annotations .invisible => "RuntimeInvisibleAnnotations"
  | parameterAnnotations .visible => "RuntimeVisibleParameterAnnotations"
  | parameterAnnotations .invisible => "RuntimeInvisibleParameterAnnotations"
  | typeAnnotations .visible => "RuntimeVisibleTypeAnnotations"
  | typeAnnotations .invisible => "RuntimeInvisibleTypeAnnotations"
  | annotationDefault => "AnnotationDefault"
  | bootstrapMethods => "BootstrapMethods"
  | methodParameters => "MethodParameters"
  | moduleInfo => "Module"
  | modulePackages => "ModulePackages"
  | moduleMainClass => "ModuleMainClass"
  | nestHost => "NestHost"
  | nestMembers => "NestMembers"
  | recordInfo => "Record"
  | permittedSubclasses => "PermittedSubclasses"

def all : List AttributeKind := [
  constantValue, code, stackMapTable, exceptions, innerClasses, enclosingMethod, synthetic,
  signature, sourceFile, sourceDebugExtension, lineNumberTable, localVariableTable,
  localVariableTypeTable, deprecated, annotations .visible, annotations .invisible,
  parameterAnnotations .visible, parameterAnnotations .invisible, typeAnnotations .visible,
  typeAnnotations .invisible, annotationDefault, bootstrapMethods, methodParameters,
  moduleInfo, modulePackages, moduleMainClass, nestHost, nestMembers, recordInfo,
  permittedSubclasses]

/-- An attribute is known by its name alone, wherever it stands. -/
def ofName? (name : String) : Option AttributeKind := all.find? (·.name = name)

@[simp] theorem mem_all (kind : AttributeKind) : kind ∈ all := by
  cases kind with
  | annotations visibility | parameterAnnotations visibility | typeAnnotations visibility =>
    cases visibility <;> decide
  | _ => decide

theorem name_of_ofName? {name : String} {kind : AttributeKind}
    (h : ofName? name = some kind) : kind.name = name := by
  simpa using List.find?_some h

end AttributeKind
end ClassFormat
