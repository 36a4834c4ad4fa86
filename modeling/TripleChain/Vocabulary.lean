/-!
# Reserved names

The IRIs with a meaning of their own: implications, computed predicates and datatypes.
-/

namespace TripleChain.Vocabulary

def logNamespace : String := "http://www.w3.org/2000/10/swap/log#"
def mathNamespace : String := "http://www.w3.org/2000/10/swap/math#"
def stringNamespace : String := "http://www.w3.org/2000/10/swap/string#"
def xsdNamespace : String := "http://www.w3.org/2001/XMLSchema#"

/-- The implication read forward, `condition => conclusion`. -/
def implies : String := "http://www.w3.org/2000/10/swap/log#implies"
/-- The implication read backward, `conclusion <= condition`. -/
def impliedBy : String := "http://www.w3.org/2000/10/swap/log#impliedBy"
def includes : String := "http://www.w3.org/2000/10/swap/log#includes"
def notIncludes : String := "http://www.w3.org/2000/10/swap/log#notIncludes"

def greaterThan : String := "http://www.w3.org/2000/10/swap/math#greaterThan"
def lessThan : String := "http://www.w3.org/2000/10/swap/math#lessThan"
def notLessThan : String := "http://www.w3.org/2000/10/swap/math#notLessThan"
def notGreaterThan : String := "http://www.w3.org/2000/10/swap/math#notGreaterThan"

def stringNotLessThan : String := "http://www.w3.org/2000/10/swap/string#notLessThan"
def stringNotGreaterThan : String := "http://www.w3.org/2000/10/swap/string#notGreaterThan"
def ord : String := "http://www.w3.org/2000/10/swap/string#ord"

def xsdString : String := "http://www.w3.org/2001/XMLSchema#string"
def xsdInteger : String := "http://www.w3.org/2001/XMLSchema#integer"
def xsdDecimal : String := "http://www.w3.org/2001/XMLSchema#decimal"
def xsdDouble : String := "http://www.w3.org/2001/XMLSchema#double"
def xsdFloat : String := "http://www.w3.org/2001/XMLSchema#float"

/-- The datatypes whose lexical forms are read as numbers. -/
def numericDatatypes : List String := [xsdInteger, xsdDecimal, xsdDouble, xsdFloat]

/-- What the labels of minted blank nodes begin with. -/
def mintedLabel : String := "sk"

end TripleChain.Vocabulary
